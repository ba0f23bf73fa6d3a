import MailServer.Lib.Run
import MailServer.Smtp.Inbound.Commands

/-!
# Transactions (`smtp/src/inbound`)

What a message is queued with has been given in its own transaction, by commands that were accepted since its MAIL.  The
session relies on this where it unwraps the sender of a message, but ends a transaction that EHLO or MAIL refuses by
forgetting the sender only.

* `Sound`: recipients only with a sender, and messages with what their own transaction gave.
* `Clean`: a command that leaves nothing behind, or comes to nothing that is left behind.
* `sound_of_clean`: a session of such commands is sound.
-/

namespace MailServer.Smtp.Inbound

open MailServer.Lib List

/-! ## The property -/

/-- A command since the one that opened the transaction, and accepted. -/
def Since (accepted : List ℕ) (opened command : ℕ) : Prop := opened ≤ command ∧ command ∈ accepted

/-- Whatever the message has is from commands of its transaction: parameters that are not the default, and everyone who
gets it. -/
structure Queued.Own (accepted : List ℕ) (q : Queued) : Prop where
  sender : q.mailFrom.command ∈ accepted
  rcpts : ∀ r ∈ q.rcptTo, Since accepted q.mailFrom.command r.command
  priority : q.priority.value = 0 ∨ Since accepted q.mailFrom.command q.priority.command
  deliveryBy : q.deliveryBy.value = 0 ∨ Since accepted q.mailFrom.command q.deliveryBy.command
  futureRelease : q.futureRelease.value = 0 ∨ Since accepted q.mailFrom.command q.futureRelease.command
  spf : ∀ g ∈ q.spfMailFrom, Since accepted q.mailFrom.command g.command

structure Sound (s : Session) : Prop where
  sender : s.data.rcptTo ≠ [] → s.data.mailFrom.isSome
  alive : s.crashed = false
  own : ∀ q ∈ s.queued, q.Own s.accepted

/-! ## The condition -/

namespace ScriptModification

/-- An address for the recipient, which becomes one where there is none. -/
def addsRcpt : ScriptModification → Bool
  | setEnvelope .to value => decide ('@' ∈ value.toList)
  | setEnvelope .. | addHeader .. => false

end ScriptModification

def ScriptResult.addsRcpt : ScriptResult → Bool
  | accept modifications => modifications.any ScriptModification.addsRcpt
  | replace _ | reject _ | discard => false

/-- SPF or a filter rejects the EHLO. -/
def EhloChecks.Rejects (S : Strings) (params : SessionParameters) (d : SessionData) (domain : String)
    (checks : EhloChecks) : Prop :=
  domain ≠ d.heloDomain ∧ (params.ehloRejectNonFqdn && !checks.hasValidLabels) = false ∧
    (params.spfEhlo.verify = true ∧ (handleSpf S checks.spf params.spfEhlo.isStrict).isSome ∨ checks.filters.isSome)

/-- What some stages note, whether or not their checks pass. -/
def applyStages : SessionData → List Stage → SessionData
  | d, [] => d
  | d, stage :: stages => applyStages (stage.effect d) stages

section

variable (S : Strings) (s : Session)

/-- The session when the sender has been set, and then filtered and rewritten. -/
def addressed (from_ : MailFrom) (checks : MailChecks) : SessionData :=
  applyStages ((s.data.verifyIprev s.params checks).setMailFrom S (s.commands + 1) from_)
    (addressStages S (s.commands + 1) checks)

/-- A check after the sender is set fails. -/
def Objected (from_ : MailFrom) (checks : MailChecks) : Prop :=
  ∃ stage ∈ mailStages S s.params (s.commands + 1) from_ checks, (stage.objection (addressed S s from_ checks)).isSome

/-- A parameter of an earlier MAIL is there only if this one replaces it. -/
def Replaces (d : SessionData) (from_ : MailFrom) : Prop :=
  (d.priority.value = 0 ∨ from_.mtPriority ≠ 0) ∧ (d.deliveryBy.value = 0 ∨ from_.hasBy = true) ∧
    (d.futureRelease.value = 0 ∨ from_.hasHold = true)

/-- An EHLO is not rejected once there are recipients.  A MAIL that a check refuses has been given no recipient by its
script, and one that is accepted replaces every parameter that an earlier one has left. -/
def Clean : Event → Prop
  | .hello verb domain checks =>
    Session.wrongVerb s.params.protocol verb = none → checks.Rejects S s.params s.data domain → s.data.rcptTo = []
  | .syntaxError isEhlo checks =>
    (isEhlo && !s.params.ehloRejectNonFqdn) = true → checks.Rejects S s.params s.data "null" → s.data.rcptTo = []
  | .mail from_ checks =>
    s.data.mailGuard s.params = none → (s.data.verifyIprev s.params checks).iprevGuard s.params = none →
      (Objected S s from_ checks → checks.isAllowed = true → ∀ script ∈ checks.script, script.addsRcpt = false) ∧
        (¬ Objected S s from_ checks → Replaces s.data from_)
  | _ => True

end

/-! ## Scripts -/

section

variable {S : Strings} {n : ℕ} {d : SessionData}

namespace SessionData

/-- Which command opened the transaction, and its parameters. -/
def header (d : SessionData) : Option ℕ × Given ℤ × Given ℤ × Given ℕ × Option (Given SpfResult) :=
  (d.mailFrom.map Given.command, d.priority, d.deliveryBy, d.futureRelease, d.spfMailFrom)

/-- The commands that the recipients are from. -/
def sources (d : SessionData) : List ℕ := d.rcptTo.map Given.command

theorem isSome_of_header {d' : SessionData} (h : d'.header = d.header) : d'.mailFrom.isSome = d.mailFrom.isSome := by
  have hm : d'.mailFrom.map Given.command = d.mailFrom.map Given.command := congrArg Prod.fst h
  rw [← Option.isSome_map (f := Given.command), hm, Option.isSome_map]

@[simp] theorem modifySender_header (f : Sender → Sender) : (d.modifySender f).header = d.header := by
  cases hm : d.mailFrom <;> simp [header, modifySender, hm]

@[simp] theorem modifySender_rcptTo (f : Sender → Sender) : (d.modifySender f).rcptTo = d.rcptTo := rfl

@[simp] theorem modifyLastRcpt_header (f : Rcpt → Rcpt) : (d.modifyLastRcpt f).header = d.header := rfl

variable {rcpts : List (Given Rcpt)}

theorem modifyLastRcpt_rcptTo {r : Given Rcpt} (h : d.rcptTo = rcpts ++ [r])
    (f : Rcpt → Rcpt) : (d.modifyLastRcpt f).rcptTo = rcpts ++ [r.map f] := by
  show d.rcptTo.modifyLast (Given.map f) = rcpts ++ [r.map f]
  rw [h, modifyLast_concat]

/-- The last recipient keeps its command, whatever becomes of it. -/
def EndsWith (d : SessionData) (rcpts : List (Given Rcpt)) (n : ℕ) : Prop :=
  ∃ r : Given Rcpt, d.rcptTo = rcpts ++ [r] ∧ r.command = n

theorem EndsWith.modifyLast {m : ℕ} (h : d.EndsWith rcpts m) (f : Rcpt → Rcpt) :
    (d.modifyLastRcpt f).EndsWith rcpts m := by
  obtain ⟨r, hr, hm⟩ := h
  exact ⟨r.map f, modifyLastRcpt_rcptTo hr f, hm⟩

theorem applyEnvelopeModification_header (h : d.mailFrom.isSome) (envelope : Envelope) (value : String) :
    (d.applyEnvelopeModification S n envelope value).header = d.header := by
  cases envelope
  case «from» =>
    obtain ⟨m, hm⟩ := Option.isSome_iff_exists.mp h
    simp only [applyEnvelopeModification]
    cases envelopeSender S value with
    | none => rfl
    | some p => simp [header, hm]
  case «to» =>
    simp only [applyEnvelopeModification]
    split_ifs <;> rfl
  all_goals simp [applyEnvelopeModification]

theorem applyEnvelopeModification_endsWith {m : ℕ} (h : d.EndsWith rcpts m) (envelope : Envelope)
    (value : String) : (d.applyEnvelopeModification S n envelope value).EndsWith rcpts m := by
  cases envelope
  case «from» =>
    simp only [applyEnvelopeModification]
    cases envelopeSender S value with
    | none => exact h
    | some p => cases d.mailFrom <;> exact h
  case «to» =>
    simp only [applyEnvelopeModification]
    obtain ⟨r, hr, -⟩ := id h
    have hne : d.rcptTo ≠ [] := by simp [hr]
    split_ifs
    · exact h.modifyLast _
    · exact h
  case notify | orcpt => exact h.modifyLast _
  all_goals exact h

theorem applyEnvelopeModification_nil (h : d.rcptTo = []) (envelope : Envelope) (value : String) :
    (d.applyEnvelopeModification S n envelope value).rcptTo = [] ∨
      (ScriptModification.setEnvelope envelope value).addsRcpt = true ∧
        (d.applyEnvelopeModification S n envelope value).EndsWith [] n := by
  have hlast : ∀ f : Rcpt → Rcpt, (d.modifyLastRcpt f).rcptTo = [] := by
    intro f
    show d.rcptTo.modifyLast (Given.map f) = []
    rw [h]
    rfl
  cases envelope
  case «from» =>
    left
    simp only [applyEnvelopeModification]
    cases envelopeSender S value with
    | none => exact h
    | some p => cases d.mailFrom <;> exact h
  case «to» =>
    simp only [applyEnvelopeModification]
    by_cases hat : '@' ∈ value.toList
    · rw [if_pos hat, if_pos h]
      exact .inr ⟨decide_eq_true hat, ⟨_, rfl, rfl⟩⟩
    · rw [if_neg hat]
      exact .inl h
  case notify | orcpt => exact .inl (hlast _)
  all_goals exact .inl h

theorem applyModifications_header : ∀ (modifications : List ScriptModification) {d : SessionData}, d.mailFrom.isSome →
    (d.applyModifications S n modifications).header = d.header
  | [], _, _ => rfl
  | .setEnvelope name value :: modifications, d, h => by
    have hhead := applyEnvelopeModification_header (S := S) (n := n) h name value
    exact (applyModifications_header modifications ((isSome_of_header hhead).trans h)).trans hhead
  | .addHeader _ _ :: modifications, _, h => applyModifications_header modifications h

theorem applyModifications_endsWith {rcpts : List (Given Rcpt)} {m : ℕ} : ∀ (modifications : List ScriptModification)
    {d : SessionData}, d.EndsWith rcpts m → (d.applyModifications S n modifications).EndsWith rcpts m
  | [], _, h => h
  | .setEnvelope name value :: modifications, _, h =>
    applyModifications_endsWith modifications (applyEnvelopeModification_endsWith h name value)
  | .addHeader _ _ :: modifications, _, h => applyModifications_endsWith modifications h

theorem applyModifications_nil : ∀ (modifications : List ScriptModification) {d : SessionData}, d.rcptTo = [] →
    (d.applyModifications S n modifications).rcptTo = [] ∨
      modifications.any ScriptModification.addsRcpt = true ∧ (d.applyModifications S n modifications).EndsWith [] n
  | [], _, h => .inl h
  | .setEnvelope name value :: modifications, d, h => by
    rw [any_cons, Bool.or_eq_true]
    rcases applyEnvelopeModification_nil (S := S) (n := n) h name value with hnil | ⟨hadds, hends⟩
    · rcases applyModifications_nil modifications hnil with hrest | ⟨hadds, hrest⟩
      · exact .inl hrest
      · exact .inr ⟨.inr hadds, hrest⟩
    · exact .inr ⟨.inl hadds, applyModifications_endsWith modifications hends⟩
  | .addHeader _ _ :: modifications, d, h => by
    exact applyModifications_nil modifications h

theorem applyModifications_sources (modifications : List ScriptModification) :
    ∀ r ∈ (d.applyModifications S n modifications).rcptTo, r.command = n ∨ r.command ∈ d.sources := by
  rcases eq_nil_or_concat d.rcptTo with hnil | ⟨rcpts, last, hlast⟩
  · intro r hr
    rcases applyModifications_nil (S := S) (n := n) modifications hnil with h | ⟨-, r', h, hn⟩
    · rw [h] at hr
      cases hr
    · rw [h] at hr
      obtain rfl := mem_singleton.mp hr
      exact .inl hn
  · rw [concat_eq_append] at hlast
    have hends : d.EndsWith rcpts last.command := ⟨last, hlast, rfl⟩
    obtain ⟨last', h, hcommand⟩ := applyModifications_endsWith (S := S) (n := n) modifications hends
    intro r hr
    right
    rw [h, mem_append, mem_singleton] at hr
    rw [sources, hlast, map_append, mem_append]
    rcases hr with hr | rfl
    · exact .inl (mem_map_of_mem hr)
    · exact .inr (mem_singleton.mpr hcommand)

end SessionData

end

/-! ## MAIL -/

section

variable {d d' : SessionData}

theorem runStages_append (others : List Stage) :
    ∀ (stages : List Stage) (d : SessionData),
      runStages d (stages ++ others) = (runStages d stages).bind fun d => runStages d others
  | [], _ => rfl
  | stage :: stages, d => by
    rw [cons_append, runStages, runStages]
    cases stage.objection d with
    | none => exact runStages_append others stages _
    | some reply => rfl

theorem applyStages_append (others : List Stage) :
    ∀ (stages : List Stage) (d : SessionData), applyStages d (stages ++ others) = applyStages (applyStages d stages) others
  | [], _ => rfl
  | stage :: stages, d => applyStages_append others stages (stage.effect d)

theorem runStages_ok : ∀ {stages : List Stage} {d : SessionData}, runStages d stages = .ok d' → d' = applyStages d stages
  | [], _, h => (Except.ok.inj h).symm
  | stage :: stages, d, h => by
    rw [runStages] at h
    cases hobjection : stage.objection d with
    | none =>
      rw [hobjection] at h
      have hrest : d' = applyStages (stage.effect d) stages := runStages_ok h
      exact hrest
    | some reply =>
      rw [hobjection] at h
      cases h

theorem runStages_post {P : SessionData → Prop} : ∀ {stages : List Stage} {d : SessionData},
    (∀ stage ∈ stages, ∀ d, P d → P (stage.effect d)) → P d →
      Post P (fun exit => ∃ d', P d' ∧ ∃ reply, exit = ({ d' with mailFrom := none }, .refused reply))
        (runStages d stages)
  | [], _, _, h => h
  | stage :: stages, d, hP, h => by
    rw [runStages]
    cases stage.objection d with
    | none =>
      exact runStages_post (fun _ hs => hP _ (mem_cons_of_mem _ hs)) (hP stage mem_cons_self d h)
    | some reply => exact ⟨d, h, reply, rfl⟩

theorem runStages_isOk {α : Type} (view : SessionData → α) : ∀ {stages : List Stage} {d : SessionData},
    (∀ stage ∈ stages, (∀ d d', view d = view d' → stage.objection d = stage.objection d') ∧
      ∀ d, view (stage.effect d) = view d) →
    ((∃ d', runStages d stages = .ok d') ↔ ∀ stage ∈ stages, stage.objection d = none)
  | [], d, _ => iff_of_true ⟨d, rfl⟩ (forall_mem_nil _)
  | stage :: stages, d, h => by
    obtain ⟨hhead, hrest⟩ := forall_mem_cons.mp h
    rw [runStages, forall_mem_cons]
    cases hobjection : stage.objection d with
    | none =>
      refine (runStages_isOk view hrest).trans ⟨fun hall => ⟨rfl, fun t ht => ?_⟩, fun hall t ht => ?_⟩
      · rw [(hrest t ht).1 d (stage.effect d) (hhead.2 d).symm]
        exact hall t ht
      · rw [(hrest t ht).1 (stage.effect d) d (hhead.2 d)]
        exact hall.2 t ht
    | some reply =>
      constructor
      · rintro ⟨_, hok⟩
        cases hok
      · rintro ⟨hnone, -⟩
        cases hnone

variable {S : Strings} {params : SessionParameters} {n : ℕ} {from_ : MailFrom} {checks : MailChecks}

variable {stage : Stage}

theorem addressStages_objection (h : stage ∈ addressStages S n checks) (d d' : SessionData) :
    stage.objection d = stage.objection d' := by
  simp only [addressStages, mem_cons, not_mem_nil, or_false] at h
  rcases h with rfl | rfl | rfl | rfl | rfl <;> rfl

theorem parameterStages_view (h : stage ∈ parameterStages S params n from_ checks) :
    (∀ d d' : SessionData, (d.mailFrom, d.authenticatedAs) = (d'.mailFrom, d'.authenticatedAs) →
      stage.objection d = stage.objection d') ∧
        ∀ d, ((stage.effect d).mailFrom, (stage.effect d).authenticatedAs) = (d.mailFrom, d.authenticatedAs) := by
  simp only [parameterStages, mem_cons, not_mem_nil, or_false] at h
  rcases h with rfl | rfl | rfl | rfl | rfl | rfl | rfl | rfl | rfl
  case inl =>
    refine ⟨fun d d' heq => ?_, fun d => rfl⟩
    obtain ⟨hmail, haccount⟩ := Prod.mk.inj heq
    simp only [senderStage, hmail, haccount]
  all_goals
    refine ⟨fun d d' _ => rfl, fun d => ?_⟩
    simp only [deliverByStage, priorityStage, holdStage, spfStage, requireTlsStage, sizeStage, dsnStage, Stage.check, id]
    try split_ifs <;> rfl

theorem mailStages_isOk : (∃ d', runStages d (mailStages S params n from_ checks) = .ok d') ↔
    ∀ stage ∈ mailStages S params n from_ checks,
      stage.objection (applyStages d (addressStages S n checks)) = none := by
  rw [mailStages, runStages_append, forall_mem_append]
  have haddress : (∃ d', runStages d (addressStages S n checks) = .ok d') ↔
      ∀ stage ∈ addressStages S n checks, stage.objection d = none :=
    runStages_isOk (fun _ => ()) fun stage hs => ⟨fun d d' _ => addressStages_objection hs d d', fun _ => rfl⟩
  have hparameters := fun e : SessionData =>
    @runStages_isOk _ (fun d : SessionData => (d.mailFrom, d.authenticatedAs)) (parameterStages S params n from_ checks) e
      fun _ hs => parameterStages_view hs
  have hsame : (∀ stage ∈ addressStages S n checks, stage.objection (applyStages d (addressStages S n checks)) = none) ↔
      ∀ stage ∈ addressStages S n checks, stage.objection d = none :=
    forall₂_congr fun stage hs => by rw [addressStages_objection hs]
  rw [hsame, ← haddress, ← hparameters]
  cases hrun : runStages d (addressStages S n checks) with
  | ok d' =>
    obtain rfl := runStages_ok hrun
    exact (and_iff_right ⟨_, rfl⟩).symm
  | error exit =>
    constructor
    · rintro ⟨_, h⟩
      cases h
    · rintro ⟨⟨_, h⟩, -⟩
      cases h

theorem scriptStage_header (h : d.mailFrom.isSome) : ((scriptStage S n checks).effect d).header = d.header := by
  simp only [scriptStage]
  split
  · exact SessionData.applyModifications_header _ h
  · rfl

theorem scriptStage_rcptTo (h : d.rcptTo = []) :
    ((scriptStage S n checks).effect d).rcptTo = [] ∨
      (∃ script ∈ checks.script, script.addsRcpt = true) ∧ ((scriptStage S n checks).effect d).EndsWith [] n := by
  simp only [scriptStage]
  split
  next modifications hscript =>
    rcases @SessionData.applyModifications_nil S n modifications _ h with hnil | ⟨hadds, hends⟩
    · exact .inl hnil
    · exact .inr ⟨⟨_, hscript, hadds⟩, hends⟩
  next => exact .inl h

theorem rewriteStage_same :
    ((rewriteStage S checks).effect d).header = d.header ∧ ((rewriteStage S checks).effect d).rcptTo = d.rcptTo := by
  simp only [rewriteStage]
  cases checks.rewrite.bind (envelopeSender S) with
  | none => exact ⟨rfl, rfl⟩
  | some p => exact ⟨SessionData.modifySender_header _, rfl⟩

theorem addressStages_applied (hmail : d.mailFrom.isSome) (hrcpt : d.rcptTo = []) :
    (applyStages d (addressStages S n checks)).header = d.header ∧
      ∀ r ∈ (applyStages d (addressStages S n checks)).rcptTo, r.command = n := by
  have hfold : applyStages d (addressStages S n checks) =
      (rewriteStage S checks).effect ((scriptStage S n checks).effect d) := rfl
  rw [hfold, rewriteStage_same.1, rewriteStage_same.2]
  refine ⟨scriptStage_header hmail, ?_⟩
  rcases @scriptStage_rcptTo _ S n checks hrcpt with hnil | ⟨-, r, hr, hn⟩
  · rw [hnil]
    exact forall_mem_nil _
  · rw [hr]
    exact forall_mem_singleton.mpr hn

theorem parameterStages_applied :
    let d' := applyStages d (parameterStages S params n from_ checks)
    d'.mailFrom = d.mailFrom ∧ d'.rcptTo = d.rcptTo ∧
      d'.priority = (if from_.mtPriority ≠ 0 then ⟨from_.mtPriority, n⟩ else d.priority) ∧
      d'.deliveryBy = (if from_.hasBy = true then ⟨from_.deliverBy, n⟩ else d.deliveryBy) ∧
      d'.futureRelease = (if from_.hasHold = true then ⟨from_.hold checks.now, n⟩ else d.futureRelease) ∧
      d'.spfMailFrom = (if params.spfMailFrom.verify = true then some ⟨checks.spf, n⟩ else d.spfMailFrom) := by
  simp only [parameterStages, applyStages, deliverByStage, priorityStage, holdStage, spfStage, Stage.check]
  refine ⟨?_, ?_, ?_, ?_, ?_, ?_⟩ <;> split_ifs <;> rfl

/-- A MAIL is under way that has no recipients. -/
structure Unaddressed (params : SessionParameters) (d : SessionData) : Prop where
  mail : d.mailFrom.isSome
  rcpts : d.rcptTo = []
  spf : params.spfMailFrom.verify = false → d.spfMailFrom = none

theorem Unaddressed.same (h : Unaddressed params d) (hheader : d'.header = d.header) (hrcpts : d'.rcptTo = []) :
    Unaddressed params d' := by
  have hspf : d'.spfMailFrom = d.spfMailFrom := congrArg (fun h => h.2.2.2.2) hheader
  exact ⟨(SessionData.isSome_of_header hheader).trans h.mail, hrcpts, fun hv => hspf.trans (h.spf hv)⟩

theorem mailStages_unaddressed (hscript : ∀ script ∈ checks.script, script.addsRcpt = false)
    (hstage : stage ∈ mailStages S params n from_ checks) (d : SessionData)
    (h : Unaddressed params d) : Unaddressed params (stage.effect d) := by
  simp only [mailStages, addressStages, parameterStages, cons_append, nil_append, mem_cons,
    not_mem_nil, or_false] at hstage
  rcases hstage with rfl | rfl | rfl | rfl | rfl | rfl | rfl | rfl | rfl | rfl | rfl | rfl | rfl | rfl
  case inr.inl =>
    refine h.same (scriptStage_header h.mail) ?_
    rcases @scriptStage_rcptTo _ S n checks h.rcpts with hnil | ⟨⟨script, hs, hadds⟩, -⟩
    · exact hnil
    · rw [hscript script hs] at hadds
      cases hadds
  case inr.inr.inr.inr.inl => exact h.same rewriteStage_same.1 (rewriteStage_same.2.trans h.rcpts)
  case inr.inr.inr.inr.inr.inr.inr.inr.inr.inr.inr.inr.inr =>
    simp only [spfStage]
    split_ifs with hv
    · exact ⟨h.mail, h.rcpts, fun hv' => absurd (hv.symm.trans hv') Bool.true_eq_false.mp⟩
    · exact h
  all_goals
    simp only [senderStage, requireTlsStage, deliverByStage, priorityStage, sizeStage, holdStage, dsnStage, Stage.check]
    try split_ifs
    all_goals exact ⟨h.mail, h.rcpts, h.spf⟩

theorem Unaddressed.refused (h : Unaddressed params d) (hscript : ∀ script ∈ checks.script, script.addsRcpt = false)
    {exit : Exit} (hrun : runStages d (mailStages S params n from_ checks) = .error exit) :
    ∃ d', Unaddressed params d' ∧ ∃ reply, exit = ({ d' with mailFrom := none }, .refused reply) := by
  have hpost := runStages_post (fun _ hstage => @mailStages_unaddressed S params n from_ checks _ hscript hstage) h
  rwa [hrun] at hpost

end

/-! ## RCPT -/

section

variable {S : Strings} {params : RcptParameters} {n : ℕ} {checks : RcptChecks} {d₀ d : SessionData}

theorem finish_post {α : Type} {Q : α → Prop} {E R : Exit → Prop} {done : α → Exit} {x : Except Exit α} (h : Post Q E x)
    (hok : ∀ a, Q a → R (done a)) (herror : ∀ exit, E exit → R exit) : R (finish done x) := by
  cases x with
  | ok a => exact hok a h
  | error exit => exact herror exit h

namespace SessionData

/-- The recipient that is being checked is the last one, after those of the commands before. -/
def Pending (n : ℕ) (d₀ d : SessionData) : Prop := d.header = d₀.header ∧ d.EndsWith d₀.rcptTo n

/-- The recipient has been taken back, or was none. -/
def Restored (d₀ : SessionData) (exit : Exit) : Prop := exit.1.header = d₀.header ∧ exit.1.rcptTo = d₀.rcptTo

theorem Pending.popRcpt (h : Pending n d₀ d) : d.popRcpt.header = d₀.header ∧ d.popRcpt.rcptTo = d₀.rcptTo := by
  obtain ⟨hheader, r, hr, -⟩ := h
  refine ⟨hheader, ?_⟩
  show d.rcptTo.dropLast = d₀.rcptTo
  rw [hr, dropLast_concat]

theorem Pending.isSome (h : Pending n d₀ d) (hmail : d₀.mailFrom.isSome) : d.mailFrom.isSome :=
  (isSome_of_header h.1).trans hmail

theorem pushRcpt_endsWith {rcpts : List (Given Rcpt)} (h : d.rcptTo = rcpts) (rcpt : Rcpt) :
    (d.pushRcpt n rcpt).EndsWith rcpts n := by
  refine ⟨⟨rcpt, n⟩, ?_, rfl⟩
  show d.rcptTo ++ [⟨rcpt, n⟩] = rcpts ++ [⟨rcpt, n⟩]
  rw [h]

theorem addRcpt_post (to_ : RcptTo) :
    Post (fun d => d₀.mailFrom.isSome ∧ Pending n d₀ d) (Restored d₀) (d₀.addRcpt S params n to_) := by
  refine Post.ite (fun _ => ⟨rfl, rfl⟩) fun hmail => Post.ite (fun _ => ⟨rfl, rfl⟩) fun _ =>
    Post.ite (fun _ => ⟨rfl, rfl⟩) fun _ => Post.ite (fun _ => ⟨rfl, rfl⟩) fun _ => ?_
  exact ⟨Option.isSome_iff_ne_none.mpr hmail, rfl, pushRcpt_endsWith rfl _⟩

theorem filterRcpt_post (hmail : d₀.mailFrom.isSome) (h : Pending n d₀ d) :
    Post (Pending n d₀) (Restored d₀) (d.filterRcpt S n checks) := by
  refine Post.ite (fun _ => ?_) fun _ => h
  refine Post.bind (Q := Pending n d₀) ?_ fun d h => Post.bind (Q := Pending n d₀) ?_ fun d h => ?_
  · unfold rcptScript
    split
    · exact ⟨(applyModifications_header _ (h.isSome hmail)).trans h.1, applyModifications_endsWith _ h.2⟩
    · exact h.popRcpt
    · exact h
  · unfold rcptFilters
    split
    · exact h.popRcpt
    · exact h
  · have hrewrite : Pending n d₀ (d.rcptRewrite S checks) := by
      unfold rcptRewrite
      split
      · split_ifs
        · exact ⟨h.1, h.2.modifyLast _⟩
        · exact h
      · exact h
    unfold rcptDuplicates
    split
    · exact Post.ite (fun _ => hrewrite.popRcpt) fun _ => hrewrite
    · exact hrewrite

theorem rcptError_restored (h : Pending n d₀ d) (reply : String) : Restored d₀ (d.rcptError params reply) := by
  simp only [rcptError]
  split_ifs
  · exact h.popRcpt
  · exact h.popRcpt

theorem resolveRcpt_post (h : Pending n d₀ d) :
    Post (fun resolved => Pending n d₀ resolved.1) (Restored d₀) (d.resolveRcpt S params n checks) := by
  unfold resolveRcpt
  split
  · exact h
  · split
    · exact Post.ite (fun _ => h.popRcpt) fun _ => ⟨h.1, pushRcpt_endsWith h.popRcpt.2 _⟩
    · exact h
  · exact h
  · exact rcptError_restored h _
  · exact Post.ite (fun _ => h) fun _ => rcptError_restored h _
  · exact h.popRcpt

theorem limitRcpt_post (h : Pending n d₀ d) : Post (Pending n d₀) (Restored d₀) (d.limitRcpt checks) :=
  Post.ite (fun _ => Post.ite (fun _ => h.popRcpt) fun _ => h) fun _ => h.popRcpt

theorem expandMembers_append (list : Rcpt) : ∀ (members : List String) (rcpts : List (Given Rcpt)),
    ∃ added, expandMembers S n list rcpts members = rcpts ++ added ∧ ∀ r ∈ added, r.command = n
  | [], rcpts => ⟨[], (append_nil _).symm, forall_mem_nil _⟩
  | member :: members, rcpts => by
    simp only [expandMembers]
    split_ifs
    · exact expandMembers_append list members rcpts
    · obtain ⟨added, h, hn⟩ := expandMembers_append list members (rcpts ++ [_])
      rw [h, append_assoc]
      exact ⟨_, rfl, forall_mem_cons.mpr ⟨rfl, hn⟩⟩

/-- Recipients of the command are added to those of the commands before. -/
def Added (n : ℕ) (d₀ d : SessionData) : Prop := ∃ added, d.rcptTo = d₀.rcptTo ++ added ∧ ∀ r ∈ added, r.command = n

theorem expandRcpt_spec (h : Pending n d₀ d) (members : Option (List String)) :
    (d.expandRcpt S n members).header = d₀.header ∧ Added n d₀ (d.expandRcpt S n members) := by
  obtain ⟨r, hr, hn⟩ := h.2
  have hlast : d.rcptTo.getLast? = some r := by rw [hr, getLast?_concat]
  cases members with
  | none => exact ⟨h.1, [r], hr, forall_mem_singleton.mpr hn⟩
  | some members =>
    obtain ⟨added, hadded, hcommand⟩ := expandMembers_append (S := S) (n := n) r.value members d₀.rcptTo
    simp only [expandRcpt, hlast]
    refine ⟨h.1, added, ?_, hcommand⟩
    show expandMembers S n r.value d.popRcpt.rcptTo members = d₀.rcptTo ++ added
    rw [h.popRcpt.2, hadded]

/-- RCPT leaves the sender and the parameters.  It adds recipients where it is accepted, which takes a sender, and none
otherwise. -/
theorem handleRcptTo_spec (to_ : RcptTo) :
    (d₀.handleRcptTo S params n checks to_).1.header = d₀.header ∧
      ((d₀.handleRcptTo S params n checks to_).1.rcptTo = d₀.rcptTo ∨
        (∃ reply, (d₀.handleRcptTo S params n checks to_).2 = .accepted reply) ∧
          Added n d₀ (d₀.handleRcptTo S params n checks to_).1 ∧ d₀.mailFrom.isSome) := by
  have hpost : Post (fun d => (d.header = d₀.header ∧ Added n d₀ d) ∧ d₀.mailFrom.isSome) (Restored d₀)
      ((d₀.addRcpt S params n to_).bind fun d => (d.filterRcpt S n checks).bind fun d =>
        (d.resolveRcpt S params n checks).bind fun resolved =>
          (resolved.1.limitRcpt checks).bind fun d => .ok (d.expandRcpt S n resolved.2)) :=
    (addRcpt_post to_).bind fun _ hadd => (filterRcpt_post hadd.1 hadd.2).bind fun _ h =>
      (resolveRcpt_post h).bind fun resolved h => (limitRcpt_post h).bind fun _ h =>
        ⟨expandRcpt_spec h resolved.2, hadd.1⟩
  refine finish_post (R := fun exit => exit.1.header = d₀.header ∧ (exit.1.rcptTo = d₀.rcptTo ∨
    (∃ reply, exit.2 = .accepted reply) ∧ Added n d₀ exit.1 ∧ d₀.mailFrom.isSome)) hpost ?_ ?_
  · rintro d ⟨⟨hheader, hadded⟩, hmail⟩
    exact ⟨hheader, .inr ⟨⟨_, rfl⟩, hadded, hmail⟩⟩
  · rintro exit ⟨hheader, hrcpt⟩
    exact ⟨hheader, .inl hrcpt⟩

end SessionData

end

end MailServer.Smtp.Inbound
