import MailServer.Smtp.Inbound.Transaction

/-!
# Whole sessions (`smtp/src/inbound`)

* `SessionData.queueMessage_post`: a message is queued with what the session has, and never without a sender.
* `Inv`: what holds between the commands of a session.
* `sound_of_clean`: from one command to a whole session.
-/

namespace MailServer.Smtp.Inbound

open MailServer.Lib MailServer.Lib.Run List Option Session SessionData Given

/-! ## Messages -/

section

variable {S : Strings} {n : ℕ} {checks : DataChecks} {d₀ d : SessionData}

namespace SessionData

/-- The session while it looks at a message: filters may have added recipients. -/
structure Handed (n : ℕ) (d₀ d : SessionData) : Prop where
  header : d.header = d₀.header
  sources : ∀ r ∈ d.rcptTo, r.command = n ∨ r.command ∈ d₀.sources

theorem Handed.mono {d' : SessionData} (h : Handed n d₀ d) (hheader : d'.header = d.header)
    (hsources : ∀ r ∈ d'.rcptTo, r.command = n ∨ r.command ∈ d.sources) : Handed n d₀ d' := by
  refine ⟨hheader.trans h.header, fun r hr => ?_⟩
  rcases hsources r hr with hn | hold
  · exact .inl hn
  · obtain ⟨r', hr', hcommand⟩ := List.mem_map.mp hold
    rw [← hcommand]
    exact h.sources r' hr'

theorem mem_sources {r : Given Rcpt} (h : r ∈ d.rcptTo) : r.command = n ∨ r.command ∈ d.sources :=
  .inr (List.mem_map_of_mem h)

/-- Where `queue_message` stops, it is not for want of a sender. -/
def Halted (n : ℕ) (d₀ : SessionData) : Stop → Prop
  | .panic => False
  | .exit exit => Handed n d₀ exit.1

theorem markSpam_commands : ∀ (results : List Bool) (rcpts : List (Given Rcpt)),
    (markSpam results rcpts).map command = rcpts.map command
  | isSpam :: results, rcpt :: rcpts => by
    rw [markSpam, map_cons, markSpam_commands results rcpts]
    cases isSpam <;> rfl
  | [], _ => rfl
  | _ :: _, [] => rfl

section

variable (hmail : d₀.mailFrom.isSome) (h : Handed n d₀ d)
include hmail h

theorem applyMilterModification_handed (m : Modification) :
    Handed n d₀ (d.applyMilterModification S n m) := by
  cases m with
  | changeFrom sender parameters =>
    refine h.mono ?_ fun _ => mem_sources
    obtain ⟨mailFrom, hm⟩ := isSome_iff_exists.mp ((isSome_of_header h.header).trans hmail)
    simp only [header, applyMilterModification, hm]
    rfl
  | addRcpt recipient parameters =>
    simp only [applyMilterModification]
    split_ifs
    · refine h.mono rfl fun r hr => ?_
      rcases mem_append.mp hr with hold | hnew
      · exact mem_sources hold
      · exact .inl (congrArg command (mem_singleton.mp hnew))
    · exact h
  | deleteRcpt recipient => exact h.mono rfl fun _ hr => mem_sources (mem_filter.mp hr).1

theorem filterMessage_post :
    Post (Handed n d₀) (Halted n d₀) (d.filterMessage S n checks) := by
  have hall : ∀ (modifications : List Modification) {d : SessionData}, Handed n d₀ d →
      Handed n d₀ (modifications.foldl (applyMilterModification S n) d) := by
    intro modifications
    induction modifications with
    | nil => exact fun h => h
    | cons m modifications ih => exact fun h => ih (applyMilterModification_handed hmail h m)
  unfold filterMessage
  split
  · exact h
  · exact h
  · exact hall _ h

theorem runScript_post :
    Post (Handed n d₀) (Halted n d₀) (d.runScript S n checks) := by
  have hscript : ∀ modifications : List ScriptModification,
      Handed n d₀ (d.applyModifications S n modifications) := fun modifications =>
    h.mono (applyModifications_header _ ((isSome_of_header h.header).trans hmail)) (applyModifications_sources _)
  unfold runScript
  split
  · exact hscript _
  · exact hscript _
  · exact h
  · exact h
  · exact h

theorem writeMessage_post :
    Post (fun written => ∃ mailFrom, d.mailFrom = some mailFrom ∧
        written.2 = ⟨mailFrom, d.rcptTo, d.priority, d.deliveryBy, d.futureRelease, d.spfMailFrom⟩)
      (Halted n d₀) (d.writeMessage checks) := by
  have hempty : Handed n d₀ { d with rcptTo := [] } := h.mono rfl (forall_mem_nil _)
  have hsome : d.mailFrom.isSome := (isSome_of_header h.header).trans hmail
  unfold writeMessage
  split
  next hnone =>
    rw [hnone] at hsome
    cases hsome
  next mailFrom hm => exact Post.ite (fun _ => Post.ite (fun _ => ⟨mailFrom, hm, rfl⟩) fun _ => hempty) fun _ => hempty

end

/-- A message is queued with the sender and the parameters of the session.  Its recipients are the session's, and those
that a filter has just added. -/
theorem queueMessage_post (hmail : d₀.mailFrom.isSome) :
    Post (fun written => ∃ d mailFrom, Handed n d₀ d ∧ d.mailFrom = some mailFrom ∧
        written.2 = ⟨mailFrom, d.rcptTo, d.priority, d.deliveryBy, d.futureRelease, d.spfMailFrom⟩)
      (Halted n d₀) (d₀.queueMessage S n checks) := by
  have hfirst : Handed n d₀ { d₀ with message := [] } := ⟨rfl, fun _ => mem_sources⟩
  have hcheck : Post (Handed n d₀) (Halted n d₀) (checkMessage checks { d₀ with message := [] }) := by
    refine Post.ite (fun _ => Post.ite (fun _ => hfirst) fun _ => ?_) fun _ => hfirst
    split
    · exact hfirst
    · exact hfirst
  refine hcheck.bind fun d h => Post.bind (Q := Handed n d₀) ?_ fun d h => Post.bind (Q := Handed n d₀) ?_ fun d h =>
    Post.bind (Q := Handed n d₀) ?_ fun d h => Post.bind (Q := Handed n d₀) ?_ fun d h =>
      (filterMessage_post hmail h).bind fun d h => (runScript_post hmail h).bind fun d h =>
        (writeMessage_post hmail h).mono fun written hwritten => ?_
  · exact Post.ite (fun _ => h) fun hnone => hnone ((isSome_of_header h.header).trans hmail)
  · refine Post.ite (fun _ => ?_) fun _ => h
    split
    · exact h
    · exact h
  · exact Post.ite (fun _ => h.mono rfl fun _ => mem_sources) fun _ => h
  · unfold spamClassify
    split
    · refine h.mono rfl fun r hr => .inr ?_
      rw [sources, ← markSpam_commands]
      exact List.mem_map_of_mem hr
    · exact h.mono rfl fun _ => mem_sources
    · exact h.mono rfl fun _ => mem_sources
    · exact h
  · obtain ⟨mailFrom, hm, hq⟩ := hwritten
    exact ⟨d, mailFrom, h, hm, hq⟩

end SessionData

end

/-! ## Between commands -/

/-- The transaction that a MAIL has opened has what it has from accepted commands since then. -/
structure Current (accepted : List ℕ) (d : SessionData) (opened : ℕ) : Prop where
  mail : opened ∈ accepted
  rcpts : ∀ r ∈ d.rcptTo, Since accepted opened r.command
  priority : d.priority.value = 0 ∨ Since accepted opened d.priority.command
  deliveryBy : d.deliveryBy.value = 0 ∨ Since accepted opened d.deliveryBy.command
  futureRelease : d.futureRelease.value = 0 ∨ Since accepted opened d.futureRelease.command
  spf : ∀ g ∈ d.spfMailFrom, Since accepted opened g.command

structure Inv (s : Session) : Prop where
  alive : s.crashed = false
  blank : s.data.mailFrom = none → s.data.rcptTo = []
  current : s.connected = true → ∀ opened, s.data.mailFrom.map command = some opened →
    Current s.accepted s.data opened
  spf : s.params.spfMailFrom.verify = false → s.data.spfMailFrom = none
  numbers : ∀ c ∈ s.accepted, c ≤ s.commands
  own : ∀ q ∈ s.queued, q.Own s.accepted

section

variable {S : Strings} {s : Session} {exit : Exit} {accepted accepted' : List ℕ} {opened : ℕ} {d d' : SessionData}

theorem Since.mono {command : ℕ} (hsub : accepted ⊆ accepted') (h : Since accepted opened command) :
    Since accepted' opened command :=
  ⟨h.1, hsub h.2⟩

theorem Queued.Own.mono {q : Queued} (hsub : accepted ⊆ accepted') (h : q.Own accepted) : q.Own accepted' where
  sender := hsub h.sender
  rcpts r hr := (h.rcpts r hr).mono hsub
  priority := h.priority.imp_right (Since.mono hsub)
  deliveryBy := h.deliveryBy.imp_right (Since.mono hsub)
  futureRelease := h.futureRelease.imp_right (Since.mono hsub)
  spf g hg := (h.spf g hg).mono hsub

theorem Current.frame (h : Current accepted d opened) (hsub : accepted ⊆ accepted') (hheader : d'.header = d.header)
    (hrcpts : ∀ r ∈ d'.rcptTo, Since accepted' opened r.command) : Current accepted' d' opened := by
  obtain ⟨-, hpriority, hby, hfuture, hspf⟩ : _ ∧ d'.priority = d.priority ∧ d'.deliveryBy = d.deliveryBy ∧
      d'.futureRelease = d.futureRelease ∧ d'.spfMailFrom = d.spfMailFrom := by
    simpa only [header, Prod.mk.injEq] using hheader
  refine ⟨hsub h.mail, hrcpts, ?_, ?_, ?_, ?_⟩
  · rw [hpriority]
    exact h.priority.imp_right (Since.mono hsub)
  · rw [hby]
    exact h.deliveryBy.imp_right (Since.mono hsub)
  · rw [hfuture]
    exact h.futureRelease.imp_right (Since.mono hsub)
  · intro g hg
    rw [hspf] at hg
    exact (h.spf g hg).mono hsub

namespace Session

@[simp] theorem answered_data : (s.answered exit).data = exit.1 := by
  unfold answered
  split <;> rfl

@[simp] theorem answered_params : (s.answered exit).params = s.params := by
  unfold answered
  split <;> rfl

@[simp] theorem answered_crashed : (s.answered exit).crashed = s.crashed := by
  unfold answered
  split <;> rfl

@[simp] theorem answered_commands : (s.answered exit).commands = s.commands + 1 := by
  unfold answered
  split <;> rfl

@[simp] theorem answered_queued : (s.answered exit).queued = s.queued := by
  unfold answered
  split <;> rfl

theorem accepted_subset : s.accepted ⊆ (s.answered exit).accepted := by
  unfold answered
  split
  · exact subset_append_left _ _
  · exact List.Subset.refl _
  · exact List.Subset.refl _

theorem accepted_answered (h : ∃ reply, exit.2 = .accepted reply) :
    (s.answered exit).accepted = s.accepted ++ [s.commands + 1] := by
  obtain ⟨reply, hreply⟩ := h
  simp [answered, hreply]

theorem mem_answered {c : ℕ} (h : c ∈ (s.answered exit).accepted) : c ∈ s.accepted ∨ c = s.commands + 1 := by
  unfold answered at h
  split at h
  · exact (mem_append.mp h).imp_right mem_singleton.mp
  · exact .inl h
  · exact .inl h

end Session

theorem Inv.answered (h : Inv s) (hblank : exit.1.mailFrom = none → exit.1.rcptTo = [])
    (hspf : s.params.spfMailFrom.verify = false → exit.1.spfMailFrom = none)
    (hcurrent : (s.answered exit).connected = true → ∀ opened, exit.1.mailFrom.map command = some opened →
      Current (s.answered exit).accepted exit.1 opened) : Inv (s.answered exit) where
  alive := answered_crashed.trans h.alive
  blank := by rwa [answered_data]
  current := by rwa [answered_data]
  spf := by rwa [answered_data, answered_params]
  numbers c hc := by
    rw [answered_commands]
    rcases mem_answered hc with hold | rfl
    · exact Nat.le_succ_of_le (h.numbers c hold)
    · exact le_rfl
  own q hq := by
    rw [answered_queued] at hq
    exact (h.own q hq).mono accepted_subset

theorem Inv.kept (h : Inv s) (hconnected : s.connected = true) (hheader : exit.1.header = s.data.header)
    (hrcpt : exit.1.rcptTo = s.data.rcptTo ∨
      (∃ reply, exit.2 = .accepted reply) ∧ SessionData.Added (s.commands + 1) s.data exit.1 ∧ s.data.mailFrom.isSome) :
    Inv (s.answered exit) := by
  have hcommand : exit.1.mailFrom.map command = s.data.mailFrom.map command := congrArg Prod.fst hheader
  have hspf : exit.1.spfMailFrom = s.data.spfMailFrom := congrArg (fun h => h.2.2.2.2) hheader
  refine h.answered (fun hnone => ?_) (fun hv => hspf.trans (h.spf hv)) fun _ opened hopened => ?_
  · have hnone' : s.data.mailFrom.isSome = false := by
      rw [← isSome_of_header hheader, hnone]
      rfl
    rcases hrcpt with hsame | ⟨-, -, hsome⟩
    · exact hsame.trans (h.blank (isSome_eq_false_iff.mp hnone' |> isNone_iff_eq_none.mp))
    · rw [hnone'] at hsome
      cases hsome
  · have hcur := h.current hconnected opened (hcommand.symm.trans hopened)
    have hold : ∀ r ∈ s.data.rcptTo, Since (s.answered exit).accepted opened r.command := fun r hr =>
      (hcur.rcpts r hr).mono accepted_subset
    refine hcur.frame accepted_subset hheader fun r hr => ?_
    rcases hrcpt with hsame | ⟨haccepted, ⟨added, hadded, hn⟩, -⟩
    · rw [hsame] at hr
      exact hold r hr
    · rw [hadded] at hr
      rcases mem_append.mp hr with hr | hr
      · exact hold r hr
      · refine ⟨?_, ?_⟩
        · rw [hn r hr]
          exact Nat.le_succ_of_le (h.numbers opened hcur.mail)
        · rw [hn r hr, accepted_answered haccepted]
          exact mem_append_right _ (mem_singleton_self _)

theorem Inv.same (h : Inv s) (hconnected : s.connected = true) {answer : Answer} (hheader : d.header = s.data.header)
    (hrcpt : d.rcptTo = s.data.rcptTo) : Inv (s.answered (d, answer)) :=
  h.kept hconnected hheader (.inl hrcpt)

theorem Inv.ended (h : Inv s) (hmail : exit.1.mailFrom = none) (hrcpt : exit.1.rcptTo = [])
    (hspf : s.params.spfMailFrom.verify = false → exit.1.spfMailFrom = none) : Inv (s.answered exit) := by
  refine h.answered (fun _ => hrcpt) hspf fun _ opened hopened => ?_
  rw [hmail] at hopened
  cases hopened

/-! ### EHLO -/

theorem Inv.greeted (h : Inv s) (hmail : d.mailFrom = s.data.mailFrom) (hrcpt : d.rcptTo = s.data.rcptTo)
    (hspf : d.spfMailFrom = s.data.spfMailFrom) {answer : Answer} :
    Inv (s.answered (finish (fun d : SessionData => (if d.mailFrom.isSome then d.reset else d, answer)) (.ok d))) := by
  simp only [finish]
  by_cases hsome : d.mailFrom.isSome = true
  · rw [if_pos hsome]
    exact h.ended rfl rfl fun _ => rfl
  · rw [if_neg hsome]
    have hnone : d.mailFrom = none := not_isSome_iff_eq_none.mp hsome
    exact h.ended hnone (hrcpt.trans (h.blank (hmail.symm.trans hnone))) fun hv => hspf.trans (h.spf hv)

theorem Inv.hello (h : Inv s) (hconnected : s.connected = true) {domain : String} {checks : EhloChecks}
    (hclean : checks.Rejects S s.params s.data domain → s.data.rcptTo = []) :
    Inv (s.answered (s.data.handleEhlo S s.params domain checks)) := by
  by_cases hdomain : domain = s.data.heloDomain
  · simp only [handleEhlo, if_pos hdomain]
    exact h.greeted rfl rfl rfl
  · simp only [handleEhlo, if_neg hdomain, checkEhlo]
    by_cases hlabels : (s.params.ehloRejectNonFqdn && !checks.hasValidLabels) = true
    · rw [if_pos hlabels]
      exact h.same hconnected rfl rfl
    · rw [if_neg hlabels]
      have hlabels' : (s.params.ehloRejectNonFqdn && !checks.hasValidLabels) = false := Bool.not_eq_true _ ▸ hlabels
      split
      next reply hspf =>
        have hrejects : s.params.spfEhlo.verify = true ∧ (handleSpf S checks.spf s.params.spfEhlo.isStrict).isSome := by
          split_ifs at hspf with hv
          exact ⟨hv, isSome_iff_exists.mpr ⟨reply, hspf⟩⟩
        exact h.ended rfl (hclean ⟨hdomain, hlabels', .inl hrejects⟩) h.spf
      next =>
        split
        next reply hfilters =>
          have hrejects : checks.filters.isSome := isSome_iff_exists.mpr ⟨reply, hfilters⟩
          exact h.ended rfl (hclean ⟨hdomain, hlabels', .inr hrejects⟩) h.spf
        next => apply h.greeted <;> rfl

/-! ### MAIL -/

theorem mailFrom_eq_none (h : s.data.mailGuard s.params = none) : s.data.mailFrom = none := by
  unfold mailGuard at h
  split_ifs at h with _ hmail
  exact not_isSome_iff_eq_none.mp hmail

theorem verifyIprev_same (checks : MailChecks) :
    (s.data.verifyIprev s.params checks).header = s.data.header ∧
      (s.data.verifyIprev s.params checks).rcptTo = s.data.rcptTo := by
  unfold verifyIprev
  split_ifs
  · exact ⟨rfl, rfl⟩
  · exact ⟨rfl, rfl⟩

theorem Current.ofMail (h : Inv s) (hnone : s.data.mailFrom = none) {from_ : MailFrom} {checks : MailChecks}
    (hreplaces : Replaces s.data from_) (hmem : s.commands + 1 ∈ accepted) :
    let d := applyStages (addressed S s from_ checks) (parameterStages S s.params (s.commands + 1) from_ checks)
    d.mailFrom.map command = some (s.commands + 1) ∧ Current accepted d (s.commands + 1) ∧
      (s.params.spfMailFrom.verify = false → d.spfMailFrom = none) := by
  have hnew : Since accepted (s.commands + 1) (s.commands + 1) := ⟨le_rfl, hmem⟩
  obtain ⟨hheader, hrcpts⟩ := @addressStages_applied ((s.data.verifyIprev s.params checks).setMailFrom S
    (s.commands + 1) from_) S (s.commands + 1) checks rfl ((verifyIprev_same checks).2.trans (h.blank hnone))
  obtain ⟨-, hpriority, hby, hfuture, hspf⟩ : _ ∧ (s.data.verifyIprev s.params checks).priority = s.data.priority ∧
      (s.data.verifyIprev s.params checks).deliveryBy = s.data.deliveryBy ∧
      (s.data.verifyIprev s.params checks).futureRelease = s.data.futureRelease ∧
      (s.data.verifyIprev s.params checks).spfMailFrom = s.data.spfMailFrom := by
    simpa only [header, Prod.mk.injEq] using (@verifyIprev_same s checks).1
  obtain ⟨hmail, hpriority', hby', hfuture', hspf'⟩ :
      (addressed S s from_ checks).mailFrom.map command = some (s.commands + 1) ∧
      (addressed S s from_ checks).priority = (s.data.verifyIprev s.params checks).priority ∧
      (addressed S s from_ checks).deliveryBy = (s.data.verifyIprev s.params checks).deliveryBy ∧
      (addressed S s from_ checks).futureRelease = (s.data.verifyIprev s.params checks).futureRelease ∧
      (addressed S s from_ checks).spfMailFrom = (s.data.verifyIprev s.params checks).spfMailFrom := by
    have hfields : (addressed S s from_ checks).header = (some (s.commands + 1),
        (s.data.verifyIprev s.params checks).priority, (s.data.verifyIprev s.params checks).deliveryBy,
        (s.data.verifyIprev s.params checks).futureRelease, (s.data.verifyIprev s.params checks).spfMailFrom) := hheader
    simpa only [header, Prod.mk.injEq] using hfields
  intro d
  obtain ⟨hmailD, hrcptD, hpriorityD, hbyD, hfutureD, hspfD⟩ := @parameterStages_applied (addressed S s from_ checks) S
    s.params (s.commands + 1) from_ checks
  rw [hpriority', hpriority] at hpriorityD
  rw [hby', hby] at hbyD
  rw [hfuture', hfuture] at hfutureD
  rw [hspf', hspf] at hspfD
  obtain ⟨hpriorityR, hbyR, hfutureR⟩ := hreplaces
  have hspfV : s.params.spfMailFrom.verify = false → d.spfMailFrom = none := by
    intro hv
    rw [hv] at hspfD
    exact hspfD.trans (h.spf hv)
  refine ⟨(congrArg (Option.map command) hmailD).trans hmail, ⟨hmem, ?_, ?_, ?_, ?_, ?_⟩, hspfV⟩
  · intro r hr
    rw [show r.command = s.commands + 1 from hrcpts r (hrcptD ▸ hr)]
    exact hnew
  · rw [hpriorityD]
    split_ifs with hset
    · exact .inr hnew
    · exact .inl (hpriorityR.resolve_right hset)
  · rw [hbyD]
    split_ifs with hset
    · exact .inr hnew
    · exact .inl (hbyR.resolve_right hset)
  · rw [hfutureD]
    split_ifs with hset
    · exact .inr hnew
    · exact .inl (hfutureR.resolve_right hset)
  · intro g hg
    rw [hspfD] at hg
    split_ifs at hg with hv
    · obtain rfl := some.inj hg
      exact hnew
    · rw [h.spf (Bool.not_eq_true _ ▸ hv)] at hg
      cases hg

section

variable {from_ : MailFrom} {checks : MailChecks}

theorem objected_iff : Objected S s from_ checks ↔
    ¬ ∃ d', runStages ((s.data.verifyIprev s.params checks).setMailFrom S (s.commands + 1) from_)
      (mailStages S s.params (s.commands + 1) from_ checks) = .ok d' := by
  rw [mailStages_isOk]
  simp [Objected, addressed, isSome_iff_ne_none]

theorem Inv.mail_opened (h : Inv s) (hnone : s.data.mailFrom = none)
    (hreplaces : ¬ Objected S s from_ checks → Replaces s.data from_)
    (hrun : runStages ((s.data.verifyIprev s.params checks).setMailFrom S (s.commands + 1) from_)
      (mailStages S s.params (s.commands + 1) from_ checks) = .ok d) {reply : String} :
    Inv (s.answered (d, .accepted reply)) := by
  have hd : d = applyStages (addressed S s from_ checks) (parameterStages S s.params (s.commands + 1) from_ checks) :=
    (runStages_ok hrun).trans (applyStages_append _ _ _)
  have hmem : s.commands + 1 ∈ (s.answered (d, .accepted reply)).accepted := by
    exact mem_append_right _ (mem_singleton_self _)
  have hpassed : ¬ Objected S s from_ checks := fun hobjected => objected_iff.1 hobjected ⟨d, hrun⟩
  obtain ⟨hmail, hcurrent, hspf⟩ := @Current.ofMail S s _ h hnone _ checks (hreplaces hpassed) hmem
  rw [← hd] at hmail hcurrent hspf
  refine h.answered (fun hnone' => ?_) hspf fun _ opened hopened => ?_
  · rw [show d.mailFrom = none from hnone'] at hmail
    cases hmail
  · obtain rfl := some.inj (hmail.symm.trans hopened)
    exact hcurrent

theorem Inv.mail_refused (h : Inv s) (hnone : s.data.mailFrom = none)
    (hobjected : Objected S s from_ checks → checks.isAllowed = true → ∀ script ∈ checks.script, script.addsRcpt = false)
    (hrun : runStages ((s.data.verifyIprev s.params checks).setMailFrom S (s.commands + 1) from_)
      (mailStages S s.params (s.commands + 1) from_ checks) = .error exit) : Inv (s.answered exit) := by
  obtain ⟨hheader, hrcpt⟩ := @verifyIprev_same s checks
  have hnil : (s.data.verifyIprev s.params checks).rcptTo = [] := hrcpt.trans (h.blank hnone)
  have hspf : s.params.spfMailFrom.verify = false → (s.data.verifyIprev s.params checks).spfMailFrom = none :=
    fun hv => (congrArg (fun h => h.2.2.2.2) hheader).trans (h.spf hv)
  have hfailed : Objected S s from_ checks := by
    rw [objected_iff, hrun]
    rintro ⟨d', hd'⟩
    cases hd'
  by_cases hallowed : checks.isAllowed = true
  · have hbegun : Unaddressed s.params ((s.data.verifyIprev s.params checks).setMailFrom S (s.commands + 1) from_) :=
      ⟨rfl, hnil, hspf⟩
    obtain ⟨d', hd', reply, rfl⟩ := hbegun.refused (hobjected hfailed hallowed) hrun
    exact h.ended rfl hd'.rcpts hd'.spf
  · -- the script does not run
    simp only [mailStages, addressStages, if_neg hallowed] at hrun
    obtain rfl := Except.error.inj hrun
    exact h.ended rfl hnil hspf

theorem Inv.mail (h : Inv s) (hconnected : s.connected = true) (hclean : Clean S s (.mail from_ checks)) :
    Inv (s.answered (s.data.handleMailFrom S s.params (s.commands + 1) from_ checks)) := by
  unfold handleMailFrom
  split
  next => exact h.same hconnected rfl rfl
  next hguard =>
    split
    next => exact h.same hconnected (verifyIprev_same checks).1 (verifyIprev_same checks).2
    next hiprev =>
      obtain ⟨hobjected, hreplaces⟩ := hclean hguard hiprev
      cases hrun : runStages ((s.data.verifyIprev s.params checks).setMailFrom S (s.commands + 1) from_)
        (mailStages S s.params (s.commands + 1) from_ checks) with
      | ok d => exact h.mail_opened (mailFrom_eq_none hguard) hreplaces hrun
      | error exit => exact h.mail_refused (mailFrom_eq_none hguard) hobjected hrun

end

/-! ### Messages -/

theorem Inv.received (h : Inv s) (hconnected : s.connected = true) (hheader : d.header = s.data.header)
    (hrcpt : d.rcptTo = s.data.rcptTo) (hne : d.rcptTo ≠ []) (checks : DataChecks) :
    Inv (s.received (d.queueMessage S (s.commands + 1) checks)) := by
  have hmail : d.mailFrom.isSome := by
    rw [isSome_of_header hheader, isSome_iff_ne_none]
    exact fun hnone => hne (hrcpt.trans (h.blank hnone))
  have hpost := @queueMessage_post S (s.commands + 1) checks _ hmail
  cases hrun : d.queueMessage S (s.commands + 1) checks with
  | error stop =>
    rw [hrun] at hpost
    cases stop with
    | panic => exact hpost.elim
    | exit exit =>
      obtain ⟨d', answer⟩ := exit
      have hheader' : d'.header = s.data.header := SessionData.Handed.header hpost |>.trans hheader
      simp only [Session.received]
      split_ifs
      · refine h.answered (fun hnone => ?_) (fun hv => ?_) fun hclosed => ?_
        · have hsome := (isSome_of_header (SessionData.Handed.header hpost)).trans hmail
          rw [show d'.mailFrom = none from hnone] at hsome
          cases hsome
        · exact (congrArg (fun h => h.2.2.2.2) hheader').trans (h.spf hv)
        · cases hclosed
      · exact h.ended rfl rfl fun _ => rfl
  | ok written =>
    rw [hrun] at hpost
    obtain ⟨d', q⟩ := written
    obtain ⟨e, mailFrom, hhanded, hmailFrom, rfl⟩ := hpost
    have hended : Inv (s.answered (d'.reset, .accepted "250 2.0.0 Message queued.\r\n")) :=
      h.ended rfl rfl fun _ => rfl
    have hopened : s.data.mailFrom.map command = some mailFrom.command := by
      have hcommand : e.mailFrom.map command = s.data.mailFrom.map command :=
        congrArg Prod.fst (hhanded.header.trans hheader)
      rw [← hcommand, hmailFrom]
      rfl
    have hcur := h.current hconnected mailFrom.command hopened
    have hcurrent : Current (s.answered (d'.reset, .accepted "250 2.0.0 Message queued.\r\n")).accepted e
        mailFrom.command := by
      refine hcur.frame Session.accepted_subset (hhanded.header.trans hheader) fun r hr => ?_
      rcases hhanded.sources r hr with hn | hold
      · rw [hn]
        exact ⟨Nat.le_succ_of_le (h.numbers _ hcur.mail), mem_append_right _ (mem_singleton_self _)⟩
      · rw [sources, hrcpt] at hold
        obtain ⟨r', hr', hcommand⟩ := List.mem_map.mp hold
        rw [← hcommand]
        exact (hcur.rcpts r' hr').mono Session.accepted_subset
    refine ⟨hended.alive, hended.blank, hended.current, hended.spf, hended.numbers, fun q hq => ?_⟩
    rcases mem_append.mp hq with hold | hnew
    · exact (h.own q hold).mono Session.accepted_subset
    · obtain rfl := mem_singleton.mp hnew
      exact ⟨hcurrent.mail, hcurrent.rcpts, hcurrent.priority, hcurrent.deliveryBy, hcurrent.futureRelease, hcurrent.spf⟩

theorem rcptTo_ne_nil {checks : DataChecks} (h : d.canSendData checks = none) : d.rcptTo ≠ [] := by
  intro hnil
  rw [canSendData, if_pos hnil] at h
  cases h

theorem Inv.handle (h : Inv s) (hconnected : s.connected = true) {event : Event} (hclean : Clean S s event) :
    Inv (s.handle S event) := by
  cases event with
  | hello verb domain checks =>
    simp only [Session.handle]
    split
    · exact h.same hconnected rfl rfl
    · exact h.hello hconnected (hclean ‹_›)
  | syntaxError isEhlo checks =>
    simp only [Session.handle]
    split_ifs with hehlo
    · exact h.hello hconnected (hclean hehlo)
    · exact h.same hconnected rfl rfl
  | mail from_ checks =>
    have hmail := h.mail hconnected hclean
    simp only [Session.handle]
    split
    · exact ⟨hmail.alive, hmail.blank, hmail.current, hmail.spf, hmail.numbers, hmail.own⟩
    · exact hmail
  | rcpt to_ checks =>
    obtain ⟨hheader, hrcpt⟩ := @handleRcptTo_spec S s.rcptParams (s.commands + 1) checks s.data to_
    exact h.kept hconnected hheader hrcpt
  | data tooLarge checks =>
    simp only [Session.handle, Session.handleData]
    split
    · exact h.same hconnected rfl rfl
    next hsend =>
      split_ifs
      · exact h.same hconnected rfl rfl
      · exact h.received hconnected rfl rfl (rcptTo_ne_nil hsend) checks
  | bdat chunk isLast checks =>
    simp only [Session.handle, Session.handleBdat]
    by_cases hroom : chunk.length + s.data.message.length < s.rcptParams.maxMessageSize
    · rw [if_pos hroom]
      split
      · exact h.same hconnected rfl rfl
      next hsend =>
        cases isLast with
        | true => exact h.received hconnected rfl rfl (rcptTo_ne_nil hsend) checks
        | false =>
          rw [if_neg Bool.false_ne_true]
          exact h.same hconnected rfl rfl
    · rw [if_neg hroom]
      exact h.same hconnected rfl rfl
  | rset =>
    show Inv (s.answered (s.data.reset, .accepted "250 2.0.0 OK\r\n"))
    exact h.ended rfl rfl fun _ => rfl
  | auth outcome =>
    have hkept : (s.handleAuth outcome).1.header = s.data.header ∧ (s.handleAuth outcome).1.rcptTo = s.data.rcptTo := by
      cases outcome with
      | failed =>
        simp only [Session.handleAuth]
        split_ifs <;> exact ⟨rfl, rfl⟩
      | succeeded | unavailable | banned =>
        simp only [Session.handleAuth]
        split_ifs <;> exact ⟨rfl, rfl⟩
    exact h.kept hconnected hkept.1 (.inl hkept.2)
  | startTls isAvailable =>
    simp only [Session.handle]
    split_ifs
    · exact h.same hconnected rfl rfl
    · have hsame : Inv (s.answered (s.data, .accepted "220 2.0.0 Ready to start TLS.\r\n")) := h.same hconnected rfl rfl
      exact ⟨hsame.alive, hsame.blank, hsame.current, hsame.spf, hsame.numbers, hsame.own⟩
    · exact h.same hconnected rfl rfl
  | noop | quit =>
    simp only [Session.handle]
    exact h.same hconnected rfl rfl

theorem Inv.new (params : SessionParameters) (rcptParams : RcptParameters) (isTls : Bool) :
    Inv (.new params rcptParams isTls) := by
  refine ⟨rfl, fun _ => rfl, fun _ opened hopened => ?_, fun _ => rfl, forall_mem_nil _, forall_mem_nil _⟩
  cases hopened

theorem Inv.sound (h : Inv s) : Sound s :=
  ⟨fun hne => isSome_iff_ne_none.mpr fun hnone => hne (h.blank hnone), h.alive, h.own⟩

end

/-! ## Sessions -/

/-- In a session whose commands leave nothing behind, recipients are there only with a sender, no message is taken
without one, and messages have what their own transactions gave. -/
theorem sound_of_clean (S : Strings) (params : SessionParameters) (rcptParams : RcptParameters) (isTls : Bool)
    (events : List Event) (h : Each (step S) (Clean S) (.new params rcptParams isTls) events) :
    Always (step S) Sound (.new params rcptParams isTls) events := by
  refine (always_of_each ?_ (Inv.new params rcptParams isTls) h).mono fun _ => Inv.sound
  intro s event s' hs hclean hstep
  unfold step at hstep
  split_ifs at hstep with hconnected
  obtain rfl := some.inj hstep
  exact hs.handle hconnected hclean

section

def sampleStrings : Strings := ⟨id, id, fun _ => "fail"⟩

def sampleParams : SessionParameters :=
  ⟨.smtp, false, false, false, 3, .disable, .disable, .disable⟩

def sampleRcptParams : RcptParameters := ⟨10, 100, true, 1000⟩

def sampleStart : Session := .new sampleParams sampleRcptParams false

/-- `EHLO b.test`, with what a script replies. -/
def sampleEhlo (script : Option String) : Event := .hello .ehlo "b.test" ⟨true, .none, script, none, none, "250 OK\r\n"⟩

/-- A MAIL with a number of seconds for BY, for a message of a size. -/
def sampleMail (address : String) (deliverBy : ℤ) (size : ℕ) : Event :=
  .mail ⟨address, { MailFlags.none with byNotify := decide (deliverBy ≠ 0) }, none, deliverBy, 0, size, 0, 0⟩
    { iprev := .none, isAllowed := true, script := none, milters := none, hooks := none, rewrite := none
      mustMatchSender := true, requireTls := false, deliverBy := some 1000, mtPriority := false, maxMessageSize := 1000
      now := 0, futureRelease := none, dsn := false, withinRate := true, spf := .none, rcptParams := sampleRcptParams }

def sampleRcpt (address : String) : Event :=
  .rcpt ⟨address, .none, none⟩ ⟨none, false, none, none, none, some .accept, false, true, false⟩

def sampleData : Event :=
  .data false
    { maxMessages := 10, parsed := true, looping := false, dkim := none, arc := none, dmarcVerify := false, dmarc := none
      isReport := false, forwardReports := false, spam := .disabled, milters := .ok [], hooks := .ok [], script := none
      hasQuota := true, queueId := some "1" }

theorem sound_of_clean_message :
    (run (step sampleStrings) sampleStart [sampleMail "a@b.test" 60 10, sampleRcpt "c@d.test", sampleData]).map
        (fun s => s.queued.length) = some 1 ∧
      Always (step sampleStrings) Sound sampleStart [sampleMail "a@b.test" 60 10, sampleRcpt "c@d.test", sampleData] := by
  refine ⟨by decide, sound_of_clean _ _ _ _ _ fun _ _ => ⟨fun _ _ => ⟨fun _ _ script hscript => ?_, fun _ => ?_⟩,
    fun _ _ => ⟨trivial, fun _ _ => ⟨trivial, trivial⟩⟩⟩⟩
  · cases hscript
  · exact ⟨.inl rfl, .inl rfl, .inl rfl⟩

/-- An EHLO that a script rejects forgets the sender and keeps the recipients, and the next message is the end of the
session.  Where another MAIL follows, its message goes to the recipients of the first as well.  So does the BY of a MAIL
that is refused for its size. -/
theorem not_transactions_sound :
    (run (step sampleStrings) sampleStart
        [sampleMail "a@b.test" 0 10, sampleRcpt "c@d.test", sampleEhlo (some "550 no\r\n"), sampleData]).map
          (fun s => s.crashed) = some true ∧
      (run (step sampleStrings) sampleStart
        [sampleMail "a@b.test" 0 10, sampleRcpt "c@d.test", sampleEhlo (some "550 no\r\n"), sampleMail "e@f.test" 0 10,
          sampleRcpt "g@h.test", sampleData]).map
            (fun s => s.queued.map fun q => q.rcptTo.map fun r => r.value.address) = some [["c@d.test", "g@h.test"]] ∧
      (run (step sampleStrings) sampleStart
        [sampleMail "a@b.test" 60 2000, sampleMail "e@f.test" 0 10, sampleRcpt "g@h.test", sampleData]).map
          (fun s => s.queued.map fun q => q.deliveryBy.value) = some [60] ∧
      ¬ ∀ (S : Strings) (params : SessionParameters) (rcptParams : RcptParameters) (isTls : Bool) (events : List Event),
        Always (step S) Sound (.new params rcptParams isTls) events := by
  have hcrash : (run (step sampleStrings) sampleStart
      [sampleMail "a@b.test" 0 10, sampleRcpt "c@d.test", sampleEhlo (some "550 no\r\n"), sampleData]).map
        (fun s => s.crashed) = some true := by decide
  refine ⟨hcrash, by decide, by decide, fun hall => ?_⟩
  obtain ⟨s, hrun, hs⟩ := map_eq_some_iff.mp hcrash
  have hsound := (hall sampleStrings sampleParams sampleRcptParams false _).last hrun
  rw [hsound.alive] at hs
  cases hs

end

end MailServer.Smtp.Inbound
