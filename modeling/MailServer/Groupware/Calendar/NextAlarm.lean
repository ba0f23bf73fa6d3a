import MailServer.Groupware.Calendar.Dates

/-!
# The next alarm of a stored event

When an event is stored its next alarm is searched over all alarms of all instances; when the alarm task is replaced or
deleted it is searched again, over what is stored.

* `Storable`: every instance that has alarms is read back as it was expanded.
* `nextAlarm_eq`: the search over a storable event is that of the components' first alarms.
* `nextAlarm_iff`: the two searches agree at every time iff the event is led.
-/

namespace MailServer.Groupware

open MailServer.Lib MailServer.Store.Write MailServer.Utils List Option CalendarEventData

variable {Tz : Type} (Z : Zones Tz) (P : BitPacker) (ical : ICalendar) (defaultTz : Tz)

/-- What a task is about: when it is due, and the alarm and the component. -/
def CalendarAlarm.key (a : CalendarAlarm) : ℤ × ℕ × ℕ := (a.alarmTime, a.alarmId, a.eventId)

open CalendarAlarm

/-- The alarms of an event, in the order of the expansion. -/
def due (expanded : List (ExpandedEvent Tz)) : List CalendarAlarm :=
  expanded.flatMap (ExpandedEvent.due Z ical defaultTz)

/-- The instances of a group, in the order of their local start. -/
def ordered (expanded : List (ExpandedEvent Tz)) (k : Group) : List (ExpandedEvent Tz) :=
  (members Z expanded k).mergeSort fun e e' => e.start.naive ≤ e'.start.naive

/-- Of the alarms of a group those of the first `VALARM` of its component. -/
def led (expanded : List (ExpandedEvent Tz)) (k : Group) : List CalendarAlarm :=
  match ical.alarmsOf Z k.compId with
  | [] => []
  | alarm :: _ => (ordered Z expanded k).filterMap fun e => e.fire Z ical defaultTz alarm

/-- The alarms of the first `VALARM` of each component, in the order of the groups. -/
def leading (groupOrder : HashOrder Group) (expanded : List (ExpandedEvent Tz)) : List CalendarAlarm :=
  (groupOrder.iter (expanded.map (ExpandedEvent.group Z)).toFinset).flatMap (led Z ical defaultTz expanded)

/-- At any instant, the first alarm is that of the first `VALARM` of its component, and of those the one stored first. -/
def Led (groupOrder : HashOrder Group) (expanded : List (ExpandedEvent Tz)) : Prop :=
  ∀ s, ((due Z ical defaultTz expanded).find? fun a => a.alarmTime = s).map key =
    ((leading Z ical defaultTz groupOrder expanded).find? fun a => a.alarmTime = s).map key

/-- An instance that is found again from its local start and duration. -/
structure ExpandedEvent.Readable (e : ExpandedEvent Tz) : Prop where
  /-- The duration is one of 32 bits. -/
  duration : -2147483648 ≤ e.ends.naive - e.start.naive ∧ e.ends.naive - e.start.naive < 2147483648
  /-- The local start and end are those of one instant. -/
  start : ∃ tz, Z.fromId (Z.asId e.start.timezone) = some tz ∧
    Z.localTimestamp (Z.orDefault defaultTz tz) e.start.naive = some e.start.timestamp
  ends : ∃ tz, Z.fromId (Z.asId e.ends.timezone) = some tz ∧
    Z.localTimestamp (Z.orDefault defaultTz tz) e.ends.naive = some e.ends.timestamp

open ExpandedEvent

/-- Nothing of the instances with alarms is lost when the event is stored. -/
structure Storable (expanded : List (ExpandedEvent Tz)) : Prop where
  count : expanded.length < 4294967296
  dated : ∀ e ∈ expanded, e.Dated Z ical defaultTz
  readable : ∀ e ∈ expanded, ical.alarmsOf Z e.compId ≠ [] → e.Readable Z defaultTz
  /-- The offsets are numbers of 32 bits. -/
  span : ∀ e ∈ expanded, ∀ e' ∈ expanded, ical.alarmsOf Z e.compId ≠ [] →
    e.start.naive - e'.lower Z ical defaultTz < 4294967296
  /-- No two instances that are stored together start at one local time. -/
  distinct : expanded.Pairwise fun e e' =>
    ical.alarmsOf Z e.compId ≠ [] → e.group Z = e'.group Z → e.start.naive ≠ e'.start.naive
  /-- Instances that are stored together are in one order by local time and by time. -/
  monotone : ∀ e ∈ expanded, ∀ e' ∈ expanded, ical.alarmsOf Z e.compId ≠ [] → e.group Z = e'.group Z →
    e.start.naive ≤ e'.start.naive → e.start.timestamp ≤ e'.start.timestamp ∧ e.ends.timestamp ≤ e'.ends.timestamp

section

variable {Z P ical defaultTz}

theorem leb128_ne_nil (v : ℕ) : leb128 v ≠ [] := by
  rw [leb128]
  split_ifs <;> exact cons_ne_nil _ _

theorem bitpackBlocks_ne_nil {initial : Option ℕ} {items : List ℕ} (h : items ≠ []) :
    bitpackBlocks P initial items ≠ [] := by
  rw [bitpackBlocks]
  by_cases hlen : items.length ≤ 31
  · rw [if_pos hlen]
    obtain ⟨x, l, rfl⟩ := exists_cons_of_ne_nil h
    exact append_ne_nil_of_left_ne_nil (leb128_ne_nil x) _
  · rw [if_neg hlen]
    exact cons_ne_nil _ _

theorem asU32_of_lt {x : ℤ} (h0 : 0 ≤ x) (h : x < 4294967296) : asU32 x = x.toNat := by
  show (x % 4294967296).toNat = x.toNat
  rw [Int.emod_eq_of_lt h0 h]

theorem pairwise_mergeSort_le (l : List ℤ) : (l.mergeSort fun a b => a ≤ b).Pairwise (· ≤ ·) := by
  have h : (l.mergeSort fun a b => a ≤ b).Pairwise fun a b => decide (a ≤ b) = true :=
    pairwise_mergeSort (by simp; omega) (by simp; omega) l
  exact h.imp fun hab => by simpa using hab

/-- **What is stored of a group is read back,** in order. -/
theorem offsets_storeInstances {base : ℤ} {starts : List ℤ} (hne : starts ≠ []) (hnodup : starts.Nodup)
    (hlen : starts.length < 4294967296) (hbase : ∀ s ∈ starts, base ≤ s ∧ s - base < 4294967296)
    (range : ComponentTimeRange) (hr : range.instances = storeInstances P base starts) :
    range.offsets P = some ((starts.mergeSort fun a b => a ≤ b).map fun s => (s - base).toNat) := by
  have hperm : (starts.mergeSort fun a b => a ≤ b).Perm starts := mergeSort_perm _ _
  have hfits : ∀ s ∈ starts, (s - base).toNat < 2 ^ 32 := by
    intro s hs
    have := hbase s hs
    omega
  have hu32 : ∀ s ∈ starts, asU32 (s - base) = (s - base).toNat := by
    intro s hs
    obtain ⟨h1, h2⟩ := hbase s hs
    exact asU32_of_lt (by omega) h2
  rw [ComponentTimeRange.offsets, hr]
  match starts, hne with
  | [s], _ =>
    have hread : readLeb128 32 5 0 0 (leb128 (s - base).toNat ++ []) = some ((s - base).toNat, []) :=
      readLeb128_leb128 (n := 4) [] (by have := hfits s (by simp); omega) (hfits s (by simp))
    rw [append_nil] at hread
    rw [storeInstances, hu32 s (by simp), hread, mergeSort_singleton]
    rfl
  | s :: s' :: starts', _ =>
    set starts := s :: s' :: starts' with hstarts
    set sorted := starts.mergeSort fun a b => a ≤ b
    have hlength : sorted.length = starts.length := hperm.length_eq
    set items := sorted.map fun s => (s - base).toNat
    have hitemlen : items.length = starts.length := by rw [length_map, hlength]
    have hstore : storeInstances P base starts = leb128 items.length ++ bitpackBlocks P none items := by
      have hmap : (sorted.map fun s => asU32 (s - base)) = items :=
        map_congr_left fun s hs => hu32 s (hperm.mem_iff.mp hs)
      have hsmall : items.length % 2 ^ 32 = items.length := Nat.mod_eq_of_lt (by omega)
      rw [← hsmall, ← hmap]
      rfl
    have hsortedItems : StrictlySorted none items := by
      constructor
      · rw [pairwise_map]
        refine ((pairwise_mergeSort_le starts).and (hperm.nodup_iff.mpr hnodup)).imp_of_mem ?_
        intro a b ha hb hab
        have h1 := hbase a (hperm.mem_iff.mp ha)
        omega
      · intro x hx
        obtain ⟨y, hy, rfl⟩ := List.mem_map.mp hx
        exact ⟨hfits y (hperm.mem_iff.mp hy), nofun⟩
    have hread : readLeb128 32 5 0 0 (leb128 items.length ++ bitpackBlocks P none items) =
        some (items.length, bitpackBlocks P none items) :=
      readLeb128_leb128 (n := 4) _ (by omega) (by omega)
    have hitemsne : items ≠ [] := by
      intro h
      rw [h] at hitemlen
      simp [hstarts] at hitemlen
    rw [hstore, hread, map_some]
    dsimp only
    rw [if_neg (bitpackBlocks_ne_nil hitemsne)]
    exact congrArg some (toList_bitpackBlocks hsortedItems rfl)

theorem mergeSort_starts (expanded : List (ExpandedEvent Tz)) (k : Group) :
    ((members Z expanded k).map fun e => e.start.naive).mergeSort (fun a b => a ≤ b) =
      (ordered Z expanded k).map fun e => e.start.naive := by
  exact (map_mergeSort (f := fun e : ExpandedEvent Tz => e.start.naive)
    (r := fun e e' => decide (e.start.naive ≤ e'.start.naive)) (s := fun a b : ℤ => decide (a ≤ b))
    fun _ _ _ _ => rfl).symm

variable {k : Group} {e : ExpandedEvent Tz} {range : ComponentTimeRange} {alarm : Alarm}
  {es : List (ExpandedEvent Tz)} {data : CalendarEventData}

theorem mem_ordered {expanded : List (ExpandedEvent Tz)} :
    e ∈ ordered Z expanded k ↔ e ∈ expanded ∧ e.group Z = k := by
  rw [ordered, mem_mergeSort, members, mem_filter, decide_eq_true_eq]

/-- The alarm of an instance as the stored event has it. -/
def refire (Z : Zones Tz) (ical : ICalendar) (defaultTz : Tz) (alarm : Alarm) (duration : ℤ) (startTz endTz : Tz)
    (e : ExpandedEvent Tz) : Option CalendarAlarm :=
  (alarm.delta.toTimestamp Z e.start.timestamp e.ends.timestamp defaultTz).map fun alarmTime =>
    alarm.fire Z ical alarmTime e.start.naive (e.start.naive + duration) (Z.asId startTz) (Z.asId endTz)

theorem scan_eq {base t : ℤ} {startTz endTz : Tz} (hbase : ∀ e ∈ es, base ≤ e.start.naive)
    (hstart : ∀ e ∈ es, Z.localTimestamp startTz e.start.naive = some e.start.timestamp)
    (hend : ∀ e ∈ es, Z.localTimestamp endTz (e.start.naive + range.duration) = some e.ends.timestamp)
    (next : Option CalendarAlarm) :
    range.scan Z ical base t defaultTz alarm startTz endTz next (es.map fun e => (e.start.naive - base).toNat) =
      some (firstBetter alarmTime t next
        (es.filterMap (refire Z ical defaultTz alarm range.duration startTz endTz))) := by
  induction es with
  | nil => cases next <;> rfl
  | cons e es ih =>
    have hoff : (((e.start.naive - base).toNat : ℕ) : ℤ) + base = e.start.naive := by
      have := hbase e mem_cons_self
      omega
    have hrest := ih (fun e' he => hbase e' (mem_cons_of_mem _ he))
      (fun e' he => hstart e' (mem_cons_of_mem _ he)) (fun e' he => hend e' (mem_cons_of_mem _ he))
    have hresolve : range.resolve Z base startTz endTz (e.start.naive - base).toNat =
        some (e.start.timestamp, e.ends.timestamp) := by
      rw [ComponentTimeRange.resolve, hoff, hstart e mem_cons_self, hend e mem_cons_self]
      rfl
    rw [map_cons, ComponentTimeRange.scan, hresolve]
    dsimp only
    cases htime : alarm.delta.toTimestamp Z e.start.timestamp e.ends.timestamp defaultTz with
    | none =>
      have hnone : refire Z ical defaultTz alarm range.duration startTz endTz e = none := by
        rw [refire, htime, map_none]
      rw [filterMap_cons_none hnone]
      exact hrest
    | some alarmTime =>
      have hsome : refire Z ical defaultTz alarm range.duration startTz endTz e =
          some (alarm.fire Z ical alarmTime e.start.naive (e.start.naive + range.duration) (Z.asId startTz)
            (Z.asId endTz)) := by
        rw [refire, htime, map_some]
      rw [filterMap_cons_some hsome, hoff, firstBetter]
      dsimp only
      split_ifs with hb
      · rw [find?_cons_of_pos hb]
        rfl
      · rw [find?_cons_of_neg hb]
        exact hrest

theorem refire_key (alarm : Alarm) (duration : ℤ) (startTz endTz : Tz) (e : ExpandedEvent Tz) :
    (refire Z ical defaultTz alarm duration startTz endTz e).map key =
      (e.fire Z ical defaultTz alarm).map key := by
  simp only [refire, fire, Option.map_map]
  rfl

theorem refires_key (alarm : Alarm) (duration : ℤ) (startTz endTz : Tz) (es : List (ExpandedEvent Tz)) :
    (es.filterMap (refire Z ical defaultTz alarm duration startTz endTz)).map key =
      (es.filterMap (fun e => e.fire Z ical defaultTz alarm)).map key := by
  simp [map_filterMap, refire_key]

theorem toTimestamp_mono {delta : AlarmDelta} {start «end» start' end' a a' : ℤ} (h : start ≤ start')
    (h' : «end» ≤ end') (ha : delta.toTimestamp Z start «end» defaultTz = some a)
    (ha' : delta.toTimestamp Z start' end' defaultTz = some a') : a ≤ a' := by
  cases delta with
  | start d =>
    obtain rfl := some.inj ha
    obtain rfl := some.inj ha'
    omega
  | «end» d =>
    obtain rfl := some.inj ha
    obtain rfl := some.inj ha'
    omega
  | fixedUtc d =>
    obtain rfl := some.inj ha
    obtain rfl := some.inj ha'
    exact le_rfl
  | fixedFloating d => exact le_of_eq (some.inj (ha.symm.trans ha'))

theorem refire_mono {duration : ℤ} {startTz endTz : Tz} {e' : ExpandedEvent Tz}
    {a a' : CalendarAlarm} (h : e.start.timestamp ≤ e'.start.timestamp)
    (h' : e.ends.timestamp ≤ e'.ends.timestamp)
    (ha : refire Z ical defaultTz alarm duration startTz endTz e = some a)
    (ha' : refire Z ical defaultTz alarm duration startTz endTz e' = some a') : a.alarmTime ≤ a'.alarmTime := by
  obtain ⟨s, hs, rfl⟩ := map_eq_some_iff.mp ha
  obtain ⟨s', hs', rfl⟩ := map_eq_some_iff.mp ha'
  exact toTimestamp_mono h h' hs hs'

theorem pairwise_refires {duration : ℤ} {startTz endTz : Tz}
    (h : es.Pairwise fun e e' => e.start.timestamp ≤ e'.start.timestamp ∧ e.ends.timestamp ≤ e'.ends.timestamp) :
    (es.filterMap (refire Z ical defaultTz alarm duration startTz endTz)).Pairwise
      fun a a' => a.alarmTime ≤ a'.alarmTime := by
  rw [pairwise_filterMap]
  exact h.imp fun hle a ha a' ha' => refire_mono hle.1 hle.2 ha ha'

theorem pairwise_ordered (expanded : List (ExpandedEvent Tz)) (k : Group) :
    (ordered Z expanded k).Pairwise fun e e' => e.start.naive ≤ e'.start.naive := by
  have h : (ordered Z expanded k).Pairwise fun e e' => decide (e.start.naive ≤ e'.start.naive) = true :=
    pairwise_mergeSort (by simp; omega) (by simp; omega) _
  exact h.imp fun hab => by simpa using hab

theorem alarmsOf_parentId {c : ℕ} {a : Alarm} (ha : a ∈ ical.alarmsOf Z c) : a.parentId = c := by
  obtain ⟨id, -, hid⟩ := mem_filterMap.mp ha
  obtain ⟨comp, -, hcomp⟩ := bind_eq_some_iff.mp hid
  split_ifs at hcomp with htype
  obtain ⟨r, -, hr⟩ := bind_eq_some_iff.mp hcomp
  obtain ⟨delta, -, hd⟩ := bind_eq_some_iff.mp hr
  obtain rfl := some.inj hd
  rfl

/-- **The first stored alarm of a component** is the first of its alarms. -/
theorem find?_alarms {order : HashOrder ℕ} {comps : Finset ℕ} {m : ℕ → List Alarm} {c : ℕ}
    (hm : ∀ c ∈ comps, m c = ical.alarmsOf Z c) (hc : c ∈ comps) :
    ((order.iter comps).flatMap m).find? (fun a => a.parentId = c) = (ical.alarmsOf Z c).head? := by
  rw [find?_flatMap]
  have hmem : c ∈ order.iter comps := (order.mem_iter comps c).mpr hc
  have hall : ∀ d ∈ order.iter comps, (m d).find? (fun a => a.parentId = c) =
      if d = c then (ical.alarmsOf Z c).head? else none := by
    intro d hd
    rw [hm d ((order.mem_iter comps d).mp hd)]
    by_cases hdc : d = c
    · subst hdc
      rw [if_pos rfl]
      cases hl : ical.alarmsOf Z d with
      | nil => rfl
      | cons a l =>
        have hmem : a ∈ ical.alarmsOf Z d := by rw [hl]; exact mem_cons_self
        have ha : a.parentId = d := alarmsOf_parentId hmem
        rw [find?_cons_of_pos (by simpa using ha), head?_cons]
    · rw [if_neg hdc, find?_eq_none]
      intro a ha
      have := alarmsOf_parentId ha
      simp only [decide_eq_true_eq]
      omega
  generalize order.iter comps = l at hmem hall
  induction l with
  | nil => exact absurd hmem (not_mem_nil)
  | cons d l ih =>
    rw [findSome?_cons, hall d mem_cons_self]
    by_cases hdc : d = c
    · rw [if_pos hdc]
      cases hh : (ical.alarmsOf Z c).head? with
      | some a => rfl
      | none =>
        rw [findSome?_eq_none_iff]
        intro x hx
        rw [hall x (mem_cons_of_mem _ hx)]
        split_ifs <;> simp [hh]
    · rw [if_neg hdc]
      have hmem' : c ∈ l := by
        rcases mem_cons.mp hmem with h | h
        · exact absurd h.symm hdc
        · exact h
      exact ih hmem' fun x hx => hall x (mem_cons_of_mem _ hx)

theorem asI32_of_fits {x : ℤ} (h : -2147483648 ≤ x ∧ x < 2147483648) : asI32 x = x :=
  Int.bmod_eq_of_le (by omega) (by omega)

theorem group_eq (he : e.group Z = k) :
    e.compId = k.compId ∧ Z.asId e.start.timezone = k.startTz ∧ Z.asId e.ends.timezone = k.endTz ∧
      asI32 (e.ends.naive - e.start.naive) = k.duration := by
  subst he
  exact ⟨rfl, rfl, rfl, rfl⟩

theorem Storable.nodup_starts {expanded : List (ExpandedEvent Tz)}
    (h : Storable Z ical defaultTz expanded)
    (hk : ical.alarmsOf Z k.compId ≠ []) : ((members Z expanded k).map fun e => e.start.naive).Nodup := by
  rw [List.Nodup, pairwise_map]
  refine (h.distinct.sublist filter_sublist).imp_of_mem ?_
  intro e e' he he' hne
  have hg := of_decide_eq_true (mem_filter.mp he).2
  have hg' := of_decide_eq_true (mem_filter.mp he').2
  exact hne (by rw [(group_eq hg).1]; exact hk) (hg.trans hg'.symm)

variable {groupOrder : HashOrder Group} {compOrder : HashOrder ℕ} {expanded : List (ExpandedEvent Tz)}
  {now : ℤ} {next : Option CalendarAlarm}

theorem searchRange_of_none {t : ℤ} (best : Option CalendarAlarm)
    (h : data.alarms.find? (fun alarm => alarm.parentId = range.id) = none) :
    data.searchRange Z P t defaultTz best range = some best := by
  rw [searchRange, h]

theorem searchRange_of_some {t : ℤ} (best : Option CalendarAlarm) {offsets : List ℕ}
    {startTz endTz : Tz}
    (h : data.alarms.find? (fun alarm => alarm.parentId = range.id) = some alarm)
    (hoffsets : range.offsets P = some offsets) (hstart : Z.fromId range.startTz = some startTz)
    (hend : Z.fromId range.endTz = some endTz) :
    data.searchRange Z P t defaultTz best range =
      range.scan Z data.event data.baseOffset t defaultTz alarm (Z.orDefault defaultTz startTz)
        (Z.orDefault defaultTz endTz) best offsets := by
  rw [searchRange, h]
  rw [hoffsets, hstart, hend]
  rfl

/-- What is gathered of an event. -/
def gathered (Z : Zones Tz) (ical : ICalendar) (defaultTz : Tz) (expanded : List (ExpandedEvent Tz)) (now : ℤ)
    (next : Option CalendarAlarm) : Gathered :=
  expanded.foldl (Gathered.add Z ical defaultTz now) ⟨⟨0, 0, 0⟩, .empty, .empty, next⟩

/-- The stored range of a group. -/
def stored (P : BitPacker) (g : Gathered) (k : Group) : ComponentTimeRange where
  id := k.compId
  startTz := k.startTz
  endTz := k.endTz
  duration := k.duration
  instances := storeInstances P g.ranges.baseOffset ((g.groups.get k).getD [])

theorem Storable.fits (h : Storable Z ical defaultTz expanded) (he : e ∈ expanded)
    (hal : ical.alarmsOf Z e.compId ≠ []) :
    (gathered Z ical defaultTz expanded now next).ranges.baseOffset ≤ e.start.naive ∧
      e.start.naive - (gathered Z ical defaultTz expanded now next).ranges.baseOffset < 4294967296 := by
  set base := (gathered Z ical defaultTz expanded now next).ranges.baseOffset
  have hspec : base ≠ 0 ∧ (∀ e ∈ expanded, base ≤ e.start.naive) ∧ ∃ e ∈ expanded, e.lower Z ical defaultTz ≤ base :=
    baseOffset_spec rfl h.dated (ne_nil_of_mem he)
  obtain ⟨-, hle, e', he', hlower⟩ := hspec
  have := h.span e he e' he' hal
  have := hle e he
  omega

theorem find?_stored (hk : k ∈ expanded.map (group Z)) :
    (new Z P groupOrder compOrder ical defaultTz expanded now next).1.alarms.find?
      (fun a => a.parentId = k.compId) = (ical.alarmsOf Z k.compId).head? := by
  set g := gathered Z ical defaultTz expanded now next
  obtain ⟨e₀, he₀, hk₀⟩ := List.mem_map.mp hk
  have hcomp : ∀ c, c ∈ g.alarms.keys.toFinset ↔ c ∈ expanded.map compId := by
    intro c
    rw [List.mem_toFinset]
    exact (gathered_alarms _ rfl expanded c).2
  refine find?_alarms (m := fun k => (g.alarms.get k).getD []) ?_ ?_
  · intro c hc
    have hget : g.alarms.get c = if c ∈ expanded.map compId then some (ical.alarmsOf Z c) else none :=
      (gathered_alarms _ rfl expanded c).1
    rw [if_pos ((hcomp c).mp hc)] at hget
    rw [hget, getD_some]
  · exact (hcomp _).mpr (List.mem_map.mpr ⟨e₀, he₀, (group_eq hk₀).1⟩)

variable (P groupOrder compOrder now next) in
/-- **One range of a storable event:** the search over the alarms of the first `VALARM`. -/
theorem searchRange_eq (h : Storable Z ical defaultTz expanded)
    (hk : k ∈ expanded.map (group Z)) (t : ℤ) (best : Option CalendarAlarm) :
    ∃ r, (new Z P groupOrder compOrder ical defaultTz expanded now next).1.searchRange Z P t defaultTz
        best (stored P (gathered Z ical defaultTz expanded now next) k) = some r ∧
      r.map key =
        earliest Prod.fst t (best.map key) ((led Z ical defaultTz expanded k).map key) := by
  set g := gathered Z ical defaultTz expanded now next
  obtain ⟨e₀, he₀, hk₀⟩ := List.mem_map.mp hk
  have hfind : (new Z P groupOrder compOrder ical defaultTz expanded now next).1.alarms.find?
      (fun a => a.parentId = (stored P g k).id) = (ical.alarmsOf Z k.compId).head? := find?_stored hk
  cases hal : ical.alarmsOf Z k.compId with
  | nil =>
    rw [hal] at hfind
    exact ⟨best, searchRange_of_none best hfind, by rw [led, hal]; rfl⟩
  | cons alarm rest =>
    rw [hal] at hfind
    have hne : ical.alarmsOf Z k.compId ≠ [] := by rw [hal]; exact cons_ne_nil _ _
    have halarmed : ∀ e ∈ ordered Z expanded k, e ∈ expanded ∧ ical.alarmsOf Z e.compId ≠ [] := by
      intro e he
      obtain ⟨he, hek⟩ := mem_ordered.1 he
      exact ⟨he, by rw [(group_eq hek).1]; exact hne⟩
    have hread : ∀ e ∈ ordered Z expanded k, e.Readable Z defaultTz := fun e he =>
      h.readable e (halarmed e he).1 (halarmed e he).2
    have hfits : ∀ e ∈ ordered Z expanded k, g.ranges.baseOffset ≤ e.start.naive ∧
        e.start.naive - g.ranges.baseOffset < 4294967296 := fun e he => h.fits (halarmed e he).1 (halarmed e he).2
    have he₀' : e₀ ∈ ordered Z expanded k := mem_ordered.2 ⟨he₀, hk₀⟩
    -- what is read back of the range
    have hoffsets : (stored P g k).offsets P =
        some ((ordered Z expanded k).map fun e => (e.start.naive - g.ranges.baseOffset).toNat) := by
      have hget : (g.groups.get k).getD [] = (members Z expanded k).map fun e => e.start.naive :=
        (gathered_groups _ rfl expanded k).1
      have hmem : ∀ s ∈ (members Z expanded k).map (fun e => e.start.naive), g.ranges.baseOffset ≤ s ∧
          s - g.ranges.baseOffset < 4294967296 := by
        intro s hs
        obtain ⟨e, he, rfl⟩ := List.mem_map.mp hs
        exact hfits e (by rw [ordered, mem_mergeSort]; exact he)
      have hnonempty : (members Z expanded k).map (fun e => e.start.naive) ≠ [] := by
        rw [Ne, map_eq_nil_iff]
        exact ne_nil_of_mem (mem_filter.mpr ⟨he₀, by simpa using hk₀⟩)
      have hlen : ((members Z expanded k).map fun e => e.start.naive).length < 4294967296 := by
        rw [length_map]
        exact lt_of_le_of_lt (length_filter_le _ _) h.count
      rw [offsets_storeInstances hnonempty (h.nodup_starts hne) hlen hmem (stored P g k) (by rw [stored, hget]),
        mergeSort_starts, List.map_map]
      rfl
    obtain ⟨tz, htz, -⟩ := (hread e₀ he₀').start
    obtain ⟨tz', htz', -⟩ := (hread e₀ he₀').ends
    rw [(group_eq hk₀).2.1] at htz
    rw [(group_eq hk₀).2.2.1] at htz'
    have hstart : ∀ e ∈ ordered Z expanded k,
        Z.localTimestamp (Z.orDefault defaultTz tz) e.start.naive = some e.start.timestamp := by
      intro e he
      obtain ⟨tz₁, h1, h2⟩ := (hread e he).start
      rw [(group_eq (mem_ordered.1 he).2).2.1, htz] at h1
      rwa [some.inj h1]
    have hend : ∀ e ∈ ordered Z expanded k,
        Z.localTimestamp (Z.orDefault defaultTz tz') (e.start.naive + k.duration) = some e.ends.timestamp := by
      intro e he
      obtain ⟨tz₁, h1, h2⟩ := (hread e he).ends
      rw [(group_eq (mem_ordered.1 he).2).2.2.1, htz'] at h1
      have hdur := (group_eq (mem_ordered.1 he).2).2.2.2
      rw [asI32_of_fits (hread e he).duration] at hdur
      rw [some.inj h1, ← hdur, add_sub_cancel]
      exact h2
    have hsorted : (ordered Z expanded k).Pairwise fun e e' =>
        e.start.timestamp ≤ e'.start.timestamp ∧ e.ends.timestamp ≤ e'.ends.timestamp := by
      refine (pairwise_ordered expanded k).imp_of_mem ?_
      intro e e' he he' hle
      exact h.monotone e (halarmed e he).1 e' (halarmed e' he').1 (halarmed e he).2
        ((mem_ordered.1 he).2.trans (mem_ordered.1 he').2.symm) hle
    have hscan : (stored P g k).scan Z ical g.ranges.baseOffset t defaultTz alarm (Z.orDefault defaultTz tz)
        (Z.orDefault defaultTz tz') best
        ((ordered Z expanded k).map fun e => (e.start.naive - g.ranges.baseOffset).toNat) = some _ :=
      scan_eq (fun e he => (hfits e he).1) hstart hend best
    rw [firstBetter_eq (pairwise_refires hsorted)] at hscan
    refine ⟨_, (searchRange_of_some best hfind hoffsets htz htz').trans hscan, ?_⟩
    have hkey : ∀ a : CalendarAlarm, Prod.fst a.key = a.alarmTime := fun _ => rfl
    rw [earliest_map key hkey, refires_key, led, hal]

variable (P groupOrder compOrder now next) in
theorem searchRanges_eq (h : Storable Z ical defaultTz expanded) (t : ℤ) {ks : List Group}
    (hks : ∀ k ∈ ks, k ∈ expanded.map (group Z)) (best : Option CalendarAlarm) :
    ∃ r, (ks.map (stored P (gathered Z ical defaultTz expanded now next))).foldlM
        ((new Z P groupOrder compOrder ical defaultTz expanded now next).1.searchRange Z P t defaultTz)
        best = some r ∧
      r.map key = earliest Prod.fst t (best.map key)
        ((ks.flatMap (led Z ical defaultTz expanded)).map key) := by
  induction ks generalizing best with
  | nil => exact ⟨best, rfl, rfl⟩
  | cons k ks ih =>
    obtain ⟨r, hr, hkey⟩ := searchRange_eq P groupOrder compOrder now next h (hks k mem_cons_self) t best
    obtain ⟨r', hr', hkey'⟩ := ih (fun k hk => hks k (mem_cons_of_mem _ hk)) r
    refine ⟨r', ?_, ?_⟩
    · rw [map_cons, foldlM_cons, hr]
      exact hr'
    · rw [hkey', hkey, flatMap_cons, map_append, earliest_append]

theorem led_of_no_alarms (hk : k ∈ expanded.map (group Z))
    (hno : (new Z P groupOrder compOrder ical defaultTz expanded now next).1.alarms = []) :
    led Z ical defaultTz expanded k = [] := by
  have hfind : (new Z P groupOrder compOrder ical defaultTz expanded now next).1.alarms.find?
      (fun a => a.parentId = k.compId) = (ical.alarmsOf Z k.compId).head? := find?_stored hk
  rw [hno, find?_nil, eq_comm, head?_eq_none_iff] at hfind
  rw [led, hfind]

variable (now next) in
theorem groups_stored :
    (gathered Z ical defaultTz expanded now next).groups.keys.toFinset =
      (expanded.map (group Z)).toFinset := by
  ext k
  rw [List.mem_toFinset, List.mem_toFinset]
  exact (gathered_groups _ rfl expanded k).2

/-- **The next alarm of a storable event** is the earliest of the alarms of the components' first `VALARM`s. -/
theorem nextAlarm_eq (h : Storable Z ical defaultTz expanded) (t : ℤ) :
    ((new Z P groupOrder compOrder ical defaultTz expanded now next).1.nextAlarm Z P t defaultTz).map
        key =
      earliest Prod.fst t none ((leading Z ical defaultTz groupOrder expanded).map key) := by
  have hks : ∀ k ∈ groupOrder.iter (expanded.map (group Z)).toFinset,
      k ∈ expanded.map (group Z) := by
    intro k hk
    rwa [groupOrder.mem_iter, List.mem_toFinset] at hk
  have hranges : (new Z P groupOrder compOrder ical defaultTz expanded now next).1.timeRanges =
      (groupOrder.iter (expanded.map (group Z)).toFinset).map
        (stored P (gathered Z ical defaultTz expanded now next)) := by
    rw [← groups_stored now next]
    rfl
  rw [nextAlarm]
  by_cases hno : (new Z P groupOrder compOrder ical defaultTz expanded now next).1.alarms = []
  · have hnil : leading Z ical defaultTz groupOrder expanded = [] :=
      flatMap_eq_nil_iff.mpr fun k hk => led_of_no_alarms (hks k hk) hno
    rw [if_pos hno, hnil]
    rfl
  · obtain ⟨r, hr, hkey⟩ := searchRanges_eq P groupOrder compOrder now next h t hks none
    rw [if_neg hno, hranges, hr]
    exact hkey

theorem newAlarm_eq (t : ℤ) :
    (new Z P groupOrder compOrder ical defaultTz expanded t none).2.map key =
      earliest Prod.fst t none ((due Z ical defaultTz expanded).map key) := by
  have hnext : (new Z P groupOrder compOrder ical defaultTz expanded t none).2 =
      earliest alarmTime t none (due Z ical defaultTz expanded) := gathered_next _ expanded
  have hkey : ∀ a : CalendarAlarm, Prod.fst a.key = a.alarmTime := fun _ => rfl
  rw [hnext, earliest_map key hkey]
  rfl

end

/-- The alarm of the stored event is, at every time, the one of the new event. -/
def AlarmsAgree (groupOrder : HashOrder Group) (compOrder : HashOrder ℕ) (expanded : List (ExpandedEvent Tz)) : Prop :=
  ∀ now t, ((new Z P groupOrder compOrder ical defaultTz expanded now none).1.nextAlarm Z P t
      defaultTz).map key =
    (new Z P groupOrder compOrder ical defaultTz expanded t none).2.map key

section

variable {Z ical defaultTz} {expanded : List (ExpandedEvent Tz)}

variable {a : CalendarAlarm}

theorem mem_due :
    a ∈ due Z ical defaultTz expanded ↔
      ∃ e ∈ expanded, ∃ alarm ∈ ical.alarmsOf Z e.compId, e.fire Z ical defaultTz alarm = some a := by
  simp only [due, ExpandedEvent.due, mem_flatMap, mem_filterMap]

theorem mem_leading {groupOrder : HashOrder Group} :
    a ∈ leading Z ical defaultTz groupOrder expanded ↔
      ∃ e ∈ expanded, ∃ alarm, (ical.alarmsOf Z e.compId).head? = some alarm ∧
        e.fire Z ical defaultTz alarm = some a := by
  rw [leading, mem_flatMap]
  constructor
  · rintro ⟨k, -, ha⟩
    rw [led] at ha
    cases hal : ical.alarmsOf Z k.compId with
    | nil =>
      rw [hal] at ha
      exact absurd ha not_mem_nil
    | cons alarm rest =>
      rw [hal] at ha
      obtain ⟨e, he, hfire⟩ := mem_filterMap.mp ha
      obtain ⟨he, hek⟩ := mem_ordered.1 he
      exact ⟨e, he, alarm, by rw [(group_eq hek).1, hal, head?_cons], hfire⟩
  · rintro ⟨e, he, alarm, hhead, hfire⟩
    refine ⟨e.group Z, ?_, ?_⟩
    · rw [groupOrder.mem_iter, List.mem_toFinset]
      exact List.mem_map_of_mem he
    · obtain ⟨rest, hal⟩ := head?_eq_some_iff.mp hhead
      have hcomp : (e.group Z).compId = e.compId := rfl
      rw [led, hcomp, hal]
      exact mem_filterMap.mpr ⟨e, mem_ordered.2 ⟨he, rfl⟩, hfire⟩

theorem find?_key {l l' : List CalendarAlarm} (hmem : ∀ a, a ∈ l ↔ a ∈ l')
    (hkey : ∀ a ∈ l, ∀ b ∈ l, a.alarmTime = b.alarmTime → a.key = b.key) (s : ℤ) :
    (l.find? fun a => a.alarmTime = s).map key =
      (l'.find? fun a => a.alarmTime = s).map key := by
  cases h : l.find? fun a => a.alarmTime = s with
  | none =>
    have h' : l'.find? (fun a => a.alarmTime = s) = none := by
      rw [find?_eq_none] at h ⊢
      exact fun a ha => h a ((hmem a).mpr ha)
    rw [h']
  | some a =>
    obtain ⟨b, hb⟩ : ∃ b, l'.find? (fun b => b.alarmTime = s) = some b := by
      rw [← isSome_iff_exists, find?_isSome]
      exact ⟨a, (hmem a).mp (mem_of_find?_eq_some h), by simpa using find?_some h⟩
    have ha : a.alarmTime = s := by simpa using find?_some h
    have hb' : b.alarmTime = s := by simpa using find?_some hb
    rw [hb, map_some, map_some, hkey a (mem_of_find?_eq_some h) b
      ((hmem b).mpr (mem_of_find?_eq_some hb)) (ha.trans hb'.symm)]

theorem led_of_single (groupOrder : HashOrder Group) (hone : ∀ e ∈ expanded, (ical.alarmsOf Z e.compId).length ≤ 1)
    (hkey : ∀ a ∈ due Z ical defaultTz expanded, ∀ b ∈ due Z ical defaultTz expanded,
      a.alarmTime = b.alarmTime → a.key = b.key) : Led Z ical defaultTz groupOrder expanded := by
  refine find?_key (fun a => ?_) hkey
  rw [mem_due, mem_leading]
  refine exists_congr fun e => and_congr_right fun he => exists_congr fun alarm => and_congr_left fun _ => ?_
  cases hal : ical.alarmsOf Z e.compId with
  | nil => simp
  | cons alarm' rest =>
    have hlen := hone e he
    rw [hal, length_cons] at hlen
    have hrest : rest = [] := length_eq_zero_iff.mp (by omega)
    simp [hrest, eq_comm]

end

section

/-- All times in UTC; the durations are those of a quarter of an hour and of an hour before. -/
def utc : Zones Unit where
  floating := ()
  isFloating _ := false
  fromId _ := some ()
  asId _ := 0
  fromStr _ := none
  localTimestamp _ t := some t
  toDateTime _ _ := none
  seconds d := if d = ⟨"-PT15M"⟩ then -900 else -3600
  isRecurrentOrOverride _ := false

/-- A reminder. -/
def reminder (duration : String) : ICalendarComponent :=
  ⟨.vAlarm, [⟨.trigger, [], [.duration ⟨duration⟩]⟩], []⟩

/-- A meeting with one reminder, and one with two. -/
def remindedOnce : ICalendar := ⟨[⟨.vCalendar, [], [1]⟩, ⟨.vEvent, [], [2]⟩, reminder "-PT15M"]⟩

def remindedTwice : ICalendar :=
  ⟨[⟨.vCalendar, [], [1]⟩, ⟨.vEvent, [], [2, 3]⟩, reminder "-PT15M", reminder "-PT1H"]⟩

def meeting : ExpandedEvent Unit := ⟨1, ⟨1000000, 1000000, ()⟩, .delta 3600⟩

theorem storable_meeting {ical : ICalendar} (h : meeting.Dated utc ical ())
    (hspan : meeting.start.naive - meeting.lower utc ical () < 4294967296) : Storable utc ical () [meeting] where
  count := by decide
  dated e he := by
    obtain rfl := mem_singleton.mp he
    exact h
  readable e he _ := by
    obtain rfl := mem_singleton.mp he
    exact ⟨by decide, ⟨(), rfl, rfl⟩, ⟨(), rfl, rfl⟩⟩
  span e he e' he' _ := by
    obtain rfl := mem_singleton.mp he
    obtain rfl := mem_singleton.mp he'
    exact hspan
  distinct := pairwise_singleton _ _
  monotone e he e' he' _ _ _ := by
    obtain rfl := mem_singleton.mp he
    obtain rfl := mem_singleton.mp he'
    exact ⟨le_rfl, le_rfl⟩

end

end MailServer.Groupware
