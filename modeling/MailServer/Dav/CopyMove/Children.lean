import MailServer.Dav.CopyMove.Items

/-!
# Events of a calendar that is copied or moved

* `childName_eq_some`, `childName_eq_none`: the name of an event in the source.
* `ChildrenCopied`: copies of some events of a calendar, and what is written for them.
* `copyChild_copied`, `copyChildren_copied`: one event, and all of them.
-/

namespace MailServer.Dav.CopyMove

open MailServer.Common MailServer.Utils MailServer.Groupware MailServer.Lib List

variable {I : Type} {fromDocumentId toDocumentId : ℕ} {names : List DavName}

/-! ## Names -/

theorem childName_concat (m : DavName) : childName fromDocumentId toDocumentId (names ++ [m]) =
    if m.parentId = toDocumentId then childName fromDocumentId toDocumentId names
    else if m.parentId = fromDocumentId then some m.name
    else childName fromDocumentId toDocumentId names := by
  unfold childName
  rw [foldl_concat]

theorem childName_eq_some {name : String} (h : childName fromDocumentId toDocumentId names = some name) :
    fromDocumentId ≠ toDocumentId ∧ ⟨name, fromDocumentId⟩ ∈ names := by
  induction names using List.reverseRecOn with
  | nil => cases h
  | append_singleton names m ih =>
    rw [childName_concat] at h
    split_ifs at h with hto hfrom
    · exact ⟨(ih h).1, mem_append_left _ (ih h).2⟩
    · obtain rfl := Option.some.inj h
      refine ⟨fun heq => hto (hfrom.trans heq), mem_append_right _ (mem_singleton.mpr ?_)⟩
      rw [← hfrom]
    · exact ⟨(ih h).1, mem_append_left _ (ih h).2⟩

theorem childName_eq_none (h : childName fromDocumentId toDocumentId names = none) (hne : fromDocumentId ≠ toDocumentId) :
    ∀ m ∈ names, m.parentId ≠ fromDocumentId := by
  induction names using List.reverseRecOn with
  | nil => nofun
  | append_singleton names n ih =>
    rw [childName_concat] at h
    intro m hm
    split_ifs at h with hto hfrom
    · rcases mem_append.mp hm with hm | hm
      · exact ih h m hm
      · obtain rfl := mem_singleton.mp hm
        exact fun heq => hne (heq.symm.trans hto)
    · rcases mem_append.mp hm with hm | hm
      · exact ih h m hm
      · obtain rfl := mem_singleton.mp hm
        exact hfrom

/-! ## Copies -/

/-- Copies of some events of a calendar; to another account they get ids from a counter. -/
structure ChildrenCopied (h : ArchiveHash I) (r : Request) (s : Accounts I) (fromDocumentId toDocumentId first : ℕ)
    (ids : List ℕ) (ops : List (Op I)) (copies : List (Copy I)) : Prop where
  writes : CopyWrites h r ops copies
  event : ∀ c ∈ copies, (s r.fromAccountId).events[c.source]? = some c.event
  name : ∀ c ∈ copies, c.sourceName ∈ c.event.names ∧ c.sourceName.parentId = fromDocumentId ∧
    c.targetName = ⟨c.sourceName.name, toDocumentId⟩
  target : ∀ c ∈ copies, if r.fromAccountId = r.toAccountId then c.target = c.source else first < c.target
  sources : (copies.map Copy.source).Sublist ids
  targets : r.fromAccountId ≠ r.toAccountId → (copies.map Copy.target).Nodup
  complete : fromDocumentId ≠ toDocumentId → ∀ id ∈ ids, ∀ n ∈ (s r.fromAccountId).names id, n.parentId = fromDocumentId →
    ∃ c ∈ copies, c.source = id ∧ c.sourceName = n
  skipped : fromDocumentId = toDocumentId → copies = []
  reads : r.fromAccountId = r.toAccountId → (events h r.toAccountId).Reads (fun id => (s r.toAccountId).events[id]?) ops
  others : ∀ accountId, (calendars h accountId).writes ops = []

section

variable {h : ArchiveHash I} {r : Request} {s s₁ : Accounts I} {first last : ℕ} {ids ids' : List ℕ}
  {ops ops' : List (Op I)} {copies copies' : List (Copy I)}

theorem ChildrenCopied.skip (h : ArchiveHash I)
    (hnone : fromDocumentId ≠ toDocumentId → ∀ id ∈ ids, ∀ n ∈ (s r.fromAccountId).names id, n.parentId ≠ fromDocumentId) :
    ChildrenCopied h r s fromDocumentId toDocumentId first ids [] [] := by
  refine ⟨.nil h r, nofun, nofun, nofun, nil_sublist _, fun _ => nodup_nil, fun hne id hid n hn heq => ?_,
    fun _ => rfl, fun _ => nofun, fun _ => rfl⟩
  exact absurd heq (hnone hne id hid n hn)

theorem ChildrenCopied.append (hc : ChildrenCopied h r s fromDocumentId toDocumentId first ids ops copies)
    (hc' : ChildrenCopied h r s fromDocumentId toDocumentId last ids' ops' copies') (hle : first ≤ last)
    (hlast : r.fromAccountId ≠ r.toAccountId → ∀ c ∈ copies, c.target ≤ last) :
    ChildrenCopied h r s fromDocumentId toDocumentId first (ids ++ ids') (ops ++ ops') (copies ++ copies') := by
  refine ⟨hc.writes.append hc'.writes, fun c hmem => ?_, fun c hmem => ?_, fun c hmem => ?_, ?_, fun hto => ?_,
    fun hne id hid n hn hparent => ?_, fun heq => ?_, fun hto => reads_append (hc.reads hto) (hc'.reads hto), fun accountId => ?_⟩
  · exact (mem_append.mp hmem).elim (hc.event c) (hc'.event c)
  · exact (mem_append.mp hmem).elim (hc.name c) (hc'.name c)
  · rcases mem_append.mp hmem with hmem | hmem
    · exact hc.target c hmem
    · have htarget := hc'.target c hmem
      split_ifs at htarget ⊢
      · exact htarget
      · omega
  · rw [map_append]
    exact hc.sources.append hc'.sources
  · rw [map_append, nodup_append]
    refine ⟨hc.targets hto, hc'.targets hto, fun x hx y hy heq => ?_⟩
    obtain ⟨c, hmem, rfl⟩ := mem_map.mp hx
    obtain ⟨c', hmem', rfl⟩ := mem_map.mp hy
    have hbefore := hlast hto c hmem
    have hafter := hc'.target c' hmem'
    rw [if_neg hto] at hafter
    omega
  · rcases mem_append.mp hid with hid | hid
    · obtain ⟨c, hmem, hrest⟩ := hc.complete hne id hid n hn hparent
      exact ⟨c, mem_append_left _ hmem, hrest⟩
    · obtain ⟨c, hmem, hrest⟩ := hc'.complete hne id hid n hn hparent
      exact ⟨c, mem_append_right _ hmem, hrest⟩
  · rw [hc.skipped heq, hc'.skipped heq, append_nil]
  · rw [Archives.writes_append, hc.others, hc'.others, append_nil]

theorem ChildrenCopied.single {c : Copy I} (hs : ∀ accountId, Consistent (s accountId)) (hwrites : CopyWrites h r ops [c])
    (hne : fromDocumentId ≠ toDocumentId) (hevent : (s r.fromAccountId).events[c.source]? = some c.event)
    (hsourceName : c.sourceName ∈ c.event.names) (hparent : c.sourceName.parentId = fromDocumentId)
    (htargetName : c.targetName = ⟨c.sourceName.name, toDocumentId⟩)
    (htarget : if r.fromAccountId = r.toAccountId then c.target = c.source else first < c.target)
    (hreads : r.fromAccountId = r.toAccountId → (events h r.toAccountId).Reads (fun id => (s r.toAccountId).events[id]?) ops)
    (hcalendars : ∀ accountId, (calendars h accountId).writes ops = []) :
    ChildrenCopied h r s fromDocumentId toDocumentId first [c.source] ops [c] := by
  refine ⟨hwrites, ?_, ?_, ?_, List.Sublist.refl _, fun _ => nodup_singleton _, fun _ id hid n hn heq => ?_,
    fun heq => absurd heq hne, hreads, hcalendars⟩
  · exact forall_mem_singleton.mpr hevent
  · exact forall_mem_singleton.mpr ⟨hsourceName, hparent, htargetName⟩
  · exact forall_mem_singleton.mpr htarget
  · obtain rfl := mem_singleton.mp hid
    have hnodup := (hs r.fromAccountId).once c.source
    rw [Account.names_eq hevent] at hn hnodup
    exact ⟨c, mem_singleton.mpr rfl, rfl, (eq_of_parentId hnodup hsourceName hn).mp (hparent.trans heq.symm)⟩

/-- **One event** of a calendar. -/
theorem copyChild_copied (h : ArchiveHash I) (hs : ∀ accountId, Consistent (s accountId)) (hsame : Same s s₁)
    (fromDocumentId toDocumentId id : ℕ) :
    ∃ copies, Same s₁ (copyChild r s₁ fromDocumentId toDocumentId r.isMove id).1 ∧
      ChildrenCopied h r s fromDocumentId toDocumentId (s₁ r.toAccountId).nextEventId [id]
        (copyChild r s₁ fromDocumentId toDocumentId r.isMove id).2.1 copies ∧
      (r.fromAccountId ≠ r.toAccountId → ∀ c ∈ copies,
        c.target ≤ ((copyChild r s₁ fromDocumentId toDocumentId r.isMove id).1 r.toAccountId).nextEventId) := by
  unfold copyChild
  rw [hsame.events]
  cases hevent : (s r.fromAccountId).events[id]? with
  | none =>
    refine ⟨[], .refl s₁, .skip h fun _ id' hid n hn => ?_, fun _ => nofun⟩
    rw [mem_singleton.mp hid, Account.names_of_none hevent] at hn
    cases hn
  | some event =>
    dsimp only
    have hnodup := (hs r.fromAccountId).once id
    rw [Account.names_eq hevent] at hnodup
    cases hname : childName fromDocumentId toDocumentId event.names with
    | none =>
      refine ⟨[], .refl s₁, .skip h fun hne id' hid n hn => ?_, fun _ => nofun⟩
      rw [mem_singleton.mp hid, Account.names_eq hevent] at hn
      exact childName_eq_none hname hne n hn
    | some newName =>
      obtain ⟨hne, hn⟩ := childName_eq_some hname
      dsimp only
      by_cases hto : r.fromAccountId = r.toAccountId
      · rw [if_pos hto]
        let c : Copy I := ⟨id, ⟨newName, fromDocumentId⟩, event, id, ⟨newName, toDocumentId⟩⟩
        have hiscopy : IsCopy r c (some { event with
            names := (if r.isMove then event.names.filter fun n => n.parentId ≠ fromDocumentId else event.names) ++
              [⟨newName, toDocumentId⟩] }) := by
          refine ⟨?_, fun e he => by rw [← Option.some.inj he]⟩
          refine List.Perm.append_right _ (List.Perm.of_eq ?_)
          split_ifs with hmove
          · exact filter_congr fun n _ => by simp [hmove, c]
          · exact (filter_eq_self.mpr fun n _ => by simp [hmove]).symm
        refine ⟨[c], .refl s₁, .single hs (copyWrites_same hto rfl hiscopy) hne hevent hn rfl rfl (by rw [if_pos hto])
          (fun _ op hop id' current changes hwrite => ?_) (fun _ => rfl), fun h => absurd hto h⟩
        rw [mem_singleton.mp hop] at hwrite
        dsimp only [events] at hwrite
        rw [if_pos hto] at hwrite
        obtain ⟨rfl, rfl, -⟩ : id = id' ∧ some event = current ∧ _ = changes := by simpa using hwrite
        exact ⟨event, rfl, hto ▸ hevent⟩
      · rw [if_neg hto]
        let c : Copy I :=
          ⟨id, ⟨newName, fromDocumentId⟩, event, (assignEventId s₁ r.toAccountId).1, ⟨newName, toDocumentId⟩⟩
        have hcw := copyWrites_other (h := h) (r := r) (c := c)
          { event with names := [⟨newName, toDocumentId⟩] } hto hnodup hn rfl rfl
        have hcalendars (accountId : UInt32) : (calendars h accountId).writes
            ((if r.isMove then deleteEvent r.fromAccountId id event fromDocumentId else []) ++
              [.event r.toAccountId c.target none (some { event with names := [⟨newName, toDocumentId⟩] })]) = [] := by
          rw [Archives.writes_append]
          have hdelete := calendars_deleteEvents (h := h) (hs r.fromAccountId) r.fromAccountId accountId [id] fromDocumentId
          unfold deleteEvents at hdelete
          rw [flatMap_singleton, hevent] at hdelete
          split_ifs
          · exact (append_nil _).trans hdelete
          · rfl
        refine ⟨[c], same_assignEventId s₁ _, .single hs hcw hne hevent hn rfl rfl ?_ (fun h => absurd h hto) hcalendars,
          fun _ => forall_mem_singleton.mpr ?_⟩
        · rw [if_neg hto]
          exact Nat.lt_succ_self _
        · show (assignEventId s₁ r.toAccountId).1 ≤ ((assignEventId s₁ r.toAccountId).2 r.toAccountId).nextEventId
          unfold assignEventId
          dsimp only
          rw [Function.update_self]

/-- **All the events** of a calendar. -/
theorem copyChildren_copied (h : ArchiveHash I) (hs : ∀ accountId, Consistent (s accountId)) (hsame : Same s s₁)
    (fromDocumentId toDocumentId : ℕ) (ids : List ℕ) :
    ∃ copies, Same s (copyChildren r fromDocumentId toDocumentId r.isMove s₁ ids).1 ∧
      ChildrenCopied h r s fromDocumentId toDocumentId (s₁ r.toAccountId).nextEventId ids
        (copyChildren r fromDocumentId toDocumentId r.isMove s₁ ids).2.1 copies := by
  induction ids generalizing s₁ with
  | nil => exact ⟨[], hsame, .skip h fun _ => nofun⟩
  | cons id ids ih =>
    obtain ⟨copies, hchild, hc, hlast⟩ := copyChild_copied h hs hsame fromDocumentId toDocumentId id
    obtain ⟨copies', hrest, hc'⟩ := ih (hsame.trans hchild)
    exact ⟨copies ++ copies', hrest, hc.append hc' (hchild.next _) hlast⟩

end

end MailServer.Dav.CopyMove
