import MailServer.Smtp.Inbound.Ingest

/-!
# Messages in chunks

* `Ingest.sound_of_meets`: the runs in which what is handed over is what the client has sent for it.
-/

namespace MailServer.Smtp.Inbound

open MailServer.Lib MailServer.Lib.Run Option Ingest

/-! ## One step -/

namespace Ingest

/-- How the message and what has been sent belong together. -/
def Accounts (c : Ingest) : State → Prop
  | .request => c.refused = false → c.replaced = false → c.session.data.message = c.chunks
  | .data => c.session.data.message = c.content ∧ c.refused = false ∧ (c.replaced = false → c.chunks = [])
  | .bdat _ isLast =>
    (c.refused = false → c.replaced = false → c.session.data.message = c.chunks) ∧
      (isLast = true → c.refused = false ∧ c.replaced = false)
  | .dataTooLarge none => c.refused = false → c.replaced = false → c.chunks = []
  | .dataTooLarge (some _) => c.refused = true

structure Inv (c : Ingest) : Prop where
  sound : Sound c
  accounts : c.session.connected = true → c.Accounts c.state

variable {S : Strings} {c c' : Ingest}

theorem Sound.frame (h : Sound c) (hhanded : c'.handed = c.handed) (hoverflowed : c'.overflowed = c.overflowed) :
    Sound c' where
  whole := by rw [hhanded]; exact h.whole
  fits := hoverflowed.trans h.fits

section

variable (h : Inv c) (hconnected : c.session.connected = true) (hstate : c.state = .request)
include h hconnected hstate

theorem Inv.command {event : Event}
    (hevent : event.isTransfer = false) (hmeets : c.Meets (.command event)) : Inv (c.command S event) := by
  have haccounts := h.accounts hconnected
  rw [hstate] at haccounts
  unfold Ingest.command
  rcases Session.handle_message (S := S) (s := c.session) hevent with ⟨hmessage, hgoes⟩ | ⟨hmessage, hturns⟩
  · rcases Bool.eq_false_or_eq_true (c.session.turns S event) with hturns | hturns
    · rw [if_pos hturns]
      refine ⟨h.sound.frame rfl rfl, fun _ => ?_⟩
      rw [hstate]
      intro _ _
      rcases hgoes with hnot | ⟨from_, checks, rfl⟩
      · rw [hturns] at hnot
        cases hnot
      · exact hmessage.trans hmeets
    · rw [if_neg (Bool.not_eq_true _ ▸ hturns)]
      refine ⟨h.sound.frame rfl rfl, fun _ => ?_⟩
      rw [hstate]
      exact fun hrefused hreplaced => hmessage.trans (haccounts hrefused hreplaced)
  · rw [if_pos hturns]
    refine ⟨h.sound.frame rfl rfl, fun _ => ?_⟩
    rw [hstate]
    exact fun _ _ => hmessage

theorem Inv.data
    {checks : DataChecks} (hrefused : c.refused = false) : Inv (c.data checks) := by
  have haccounts := h.accounts hconnected
  rw [hstate] at haccounts
  unfold Ingest.data
  split
  · refine ⟨h.sound.frame rfl rfl, fun _ => ?_⟩
    rw [hstate]
    intro hrefused hreplaced
    exact haccounts hrefused hreplaced
  · refine ⟨h.sound.frame rfl rfl, fun _ => ⟨rfl, hrefused, fun hreplaced => ?_⟩⟩
    exact not_not.mp (of_decide_eq_false (Bool.or_eq_false_iff.mp hreplaced).2)

theorem Inv.bdat {chunkSize : ℕ}
    {isLast : Bool} (hmeets : c.Meets (.bdat chunkSize isLast)) : Inv (c.bdat chunkSize isLast) := by
  have haccounts := h.accounts hconnected
  rw [hstate] at haccounts
  have hfits : (c.overflowed || decide (0x10000000000000000 ≤ chunkSize + c.session.data.message.length)) = false := by
    rw [h.sound.fits, Bool.false_or, decide_eq_false_iff_not]
    exact not_le.mpr hmeets.1
  unfold Ingest.bdat
  dsimp only
  split_ifs
  · exact ⟨⟨h.sound.whole, hfits⟩, fun hconnected => absurd hconnected Bool.false_ne_true⟩
  · exact ⟨⟨h.sound.whole, hfits⟩, fun _ => ⟨haccounts, hmeets.2⟩⟩
  · exact ⟨⟨h.sound.whole, hfits⟩, fun _ => rfl⟩

end

theorem Inv.refuse (hsound : Sound c) (hchunks : c.refused = false → c.replaced = false → c.chunks = [])
    (reply : String) : Inv (c.refuse reply) := by
  refine ⟨hsound.frame rfl rfl, fun _ hrefused hreplaced => ?_⟩
  show (c.session.answered _).data.message = c.chunks
  rw [Session.answered_data, hchunks hrefused hreplaced]

theorem Inv.queueMessage (hsound : Sound c) {sent : List UInt8} (hwhole : c.session.data.message = sent)
    (hrefused : c.refused = false) (checks : DataChecks) : Inv (c.queueMessage S sent checks) := by
  refine ⟨⟨?_, hsound.fits⟩, fun hconnected _ _ => Session.received_message hconnected⟩
  exact List.forall_mem_append.mpr ⟨hsound.whole, List.forall_mem_singleton.mpr ⟨hwhole, hrefused⟩⟩

theorem Inv.dataBytes (h : Inv c) (hconnected : c.session.connected = true) (hstate : c.state = .data)
    (piece : List UInt8) (isEnd : Bool) (buffer : ℕ) (checks : DataChecks) :
    Inv (c.dataBytes S piece isEnd buffer checks) := by
  have haccounts := h.accounts hconnected
  rw [hstate] at haccounts
  obtain ⟨hcontent, hrefused, hchunks⟩ := haccounts
  have hwhole : c.session.data.message ++ piece = c.content ++ piece := by rw [hcontent]
  unfold Ingest.dataBytes dataTooLargeBytes
  split_ifs
  · refine Inv.queueMessage ?_ ?_ ?_ checks
    · exact h.sound.frame rfl rfl
    · exact hwhole
    · exact hrefused
  · refine ⟨h.sound.frame rfl rfl, fun _ => ?_⟩
    rw [hstate]
    exact ⟨hwhole, hrefused, hchunks⟩
  · exact Inv.refuse h.sound (fun _ => hchunks) _
  · exact ⟨h.sound.frame rfl rfl, fun _ _ => hchunks⟩

theorem Inv.chunk (hsound : Sound c) {isLast : Bool} (haccounts : c.Accounts (.bdat 0 isLast)) (checks : DataChecks) :
    Inv (c.chunk S isLast checks) := by
  obtain ⟨hmessage, hlast⟩ := haccounts
  unfold Ingest.chunk
  split
  · refine ⟨hsound.frame rfl rfl, fun _ hrefused => ?_⟩
    cases hrefused
  · cases isLast with
    | true =>
      obtain ⟨hrefused, hreplaced⟩ := hlast rfl
      exact Inv.queueMessage hsound (hmessage hrefused hreplaced) hrefused checks
    | false =>
      refine ⟨hsound.frame rfl rfl, fun _ hrefused hreplaced => ?_⟩
      exact hmessage hrefused hreplaced

theorem Inv.bdatBytes (h : Inv c) (hconnected : c.session.connected = true) {left : ℕ} {isLast : Bool}
    (hstate : c.state = .bdat left isLast) (piece : List UInt8) (checks : DataChecks) :
    Inv (c.bdatBytes S left isLast piece checks) := by
  have haccounts := h.accounts hconnected
  rw [hstate] at haccounts
  obtain ⟨hmessage, hlast⟩ := haccounts
  have hwhole : c.refused = false → c.replaced = false →
      c.session.data.message ++ piece = c.chunks ++ piece := by
    intro hrefused hreplaced
    rw [hmessage hrefused hreplaced]
  unfold Ingest.bdatBytes
  split_ifs
  · refine Inv.chunk ?_ ?_ checks
    · exact h.sound.frame rfl rfl
    · exact ⟨hwhole, hlast⟩
  · exact ⟨h.sound.frame rfl rfl, fun _ => ⟨hwhole, hlast⟩⟩

theorem Inv.step (h : Inv c) {input : Input} (hmeets : c.Meets input) (hstep : c.step S input = some c') : Inv c' := by
  unfold Ingest.step at hstep
  split_ifs at hstep with hconnected
  have haccounts := h.accounts hconnected
  split at hstep
  next event hstate =>
    split_ifs at hstep with hevent
    obtain rfl := some.inj hstep
    exact h.command hconnected hstate (Bool.not_eq_true _ ▸ hevent) hmeets
  next checks hstate =>
    obtain rfl := some.inj hstep
    exact h.data hconnected hstate hmeets
  next chunkSize isLast hstate =>
    obtain rfl := some.inj hstep
    exact h.bdat hconnected hstate hmeets
  next piece isEnd buffer checks hstate =>
    obtain rfl := some.inj hstep
    exact h.dataBytes hconnected hstate piece isEnd buffer checks
  next left isLast piece isEnd buffer checks hstate =>
    split_ifs at hstep
    obtain rfl := some.inj hstep
    exact h.bdatBytes hconnected hstate piece checks
  next piece isEnd buffer checks hstate =>
    obtain rfl := some.inj hstep
    rw [hstate] at haccounts
    unfold dataTooLargeBytes
    split_ifs
    · exact Inv.refuse h.sound haccounts _
    · exact ⟨h.sound.frame rfl rfl, fun _ => haccounts⟩
  next left piece isEnd buffer checks hstate =>
    split_ifs at hstep
    obtain rfl := some.inj hstep
    rw [hstate] at haccounts
    have hrefused : c.refused = true := haccounts
    unfold bdatTooLargeBytes
    split_ifs
    · refine Inv.refuse ?_ ?_ _
      · exact h.sound.frame rfl rfl
      · exact fun hnot => absurd (hrefused.symm.trans hnot) Bool.true_eq_false.mp
    · exact ⟨h.sound.frame rfl rfl, fun _ => hrefused⟩
  next => cases hstep

theorem Inv.new (session : Session) (h : session.data.message = []) : Inv (new session) :=
  ⟨⟨List.forall_mem_nil _, rfl⟩, fun _ _ _ => h⟩

/-- In a session whose commands meet the conditions, each message that is handed over is the content of a DATA or of all
chunks of its transaction, none of which was refused, and no size overflows. -/
theorem sound_of_meets (S : Strings) (params : SessionParameters) (rcptParams : RcptParameters) (isTls : Bool)
    (inputs : List Input) (h : Each (step S) Meets (new (.new params rcptParams isTls)) inputs) :
    Always (step S) Sound (new (.new params rcptParams isTls)) inputs :=
  (always_of_each (fun _ _ _ hs hmeets hstep => Inv.step hs hmeets hstep) (Inv.new _ rfl) h).mono fun _ => Inv.sound

section

/-- A MAIL after which messages have less than ten bytes. -/
def sampleShortMail : Event :=
  .mail ⟨"a@b.test", .none, none, 0, 0, 0, 0, 0⟩
    { iprev := .none, isAllowed := true, script := none, milters := none, hooks := none, rewrite := none
      mustMatchSender := true, requireTls := false, deliverBy := none, mtPriority := false, maxMessageSize := 9
      now := 0, futureRelease := none, dsn := false, withinRate := true, spf := .none
      rcptParams := ⟨10, 100, true, 10⟩ }

def sampleChecks : DataChecks :=
  { maxMessages := 10, parsed := true, looping := false, dkim := none, arc := none, dmarcVerify := false, dmarc := none
    isReport := false, forwardReports := false, spam := .disabled, milters := .ok [], hooks := .ok [], script := none
    hasQuota := true, queueId := some "1" }

def sampleChunk (chunk : List UInt8) (isLast : Bool) : List Input :=
  [.bdat chunk.length isLast, .bytes chunk false chunk.length sampleChecks]

def sampleInputs (chunks : List Input) : List Input :=
  [.command sampleShortMail, .command (sampleRcpt "c@d.test")] ++ chunks

/-- Two chunks in their order are one message. -/
theorem sound_of_meets_chunks :
    (run (step sampleStrings) (new sampleStart)
        (sampleInputs (sampleChunk [1, 2] false ++ sampleChunk [3] true))).map
          (fun c => c.handed.map Handed.message) = some [[1, 2, 3]] ∧
      Always (step sampleStrings) Sound (new sampleStart)
        (sampleInputs (sampleChunk [1, 2] false ++ sampleChunk [3] true)) := by
  refine ⟨by decide, sound_of_meets _ _ _ _ _ ?_⟩
  refine (each_cons rfl).mpr ⟨rfl, (each_cons rfl).mpr ⟨trivial, ?_⟩⟩
  refine (each_cons rfl).mpr ⟨⟨by decide, by decide⟩, (each_cons rfl).mpr ⟨trivial, ?_⟩⟩
  exact (each_cons rfl).mpr ⟨⟨by decide, by decide⟩, (each_cons rfl).mpr ⟨trivial, trivial⟩⟩

/-- A chunk of twenty bytes is refused, and the three bytes of the next one are queued as the message. -/
theorem not_ingest_sound :
    (run (step sampleStrings) (new sampleStart)
        (sampleInputs (sampleChunk (List.replicate 20 0) false ++ sampleChunk [1, 2, 3] true))).map
          (fun c => (c.handed.map Handed.message, c.session.queued.length)) = some ([[1, 2, 3]], 1) ∧
      ¬ ∀ (S : Strings) (params : SessionParameters) (rcptParams : RcptParameters) (isTls : Bool) (inputs : List Input),
        Always (step S) Sound (new (.new params rcptParams isTls)) inputs := by
  refine ⟨by decide, fun hall => ?_⟩
  have hrefused : (run (step sampleStrings) (new sampleStart)
      (sampleInputs (sampleChunk (List.replicate 20 0) false ++ sampleChunk [1, 2, 3] true))).map
        (fun c => c.handed) = some [⟨[1, 2, 3], List.replicate 20 0 ++ [1, 2, 3], true⟩] := by decide
  obtain ⟨c, hrun, hc⟩ := map_eq_some_iff.mp hrefused
  have hsound := (hall sampleStrings sampleParams sampleRcptParams false _).last hrun
  have hhanded := hsound.whole ⟨[1, 2, 3], List.replicate 20 0 ++ [1, 2, 3], true⟩ (hc ▸ List.mem_singleton_self _)
  cases hhanded.2

end

end Ingest

end MailServer.Smtp.Inbound
