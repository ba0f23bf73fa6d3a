import MailServer.Imap.Segments
import Mathlib.Data.List.SplitLengths

/-!
# Rejected literals (`imap-proto/src/receiver.rs`, `imap/src/core/client.rs`)

A client sends a non-synchronizing literal without waiting for leave.  When the receiver rejects it, its bytes are
in the stream all the same.

* `literalSegments`: the segment of the closing brace, and those behind it.
* `ContentIgnored`: what is dispatched does not depend on the content of the literal.
* `content_iff`: it does not exactly when the content ends within the segment of the brace.
-/

namespace MailServer.Imap

open MailServer.ImapProto MailServer.Lib List Receiver

namespace Session

variable {C : Config} {E : ℕ → Outcome}

/-- The commands and errors that have been dispatched. -/
def dispatched (s : Session) : List Event := (s.log.map Entry.event).filter (· ≠ .quiet)

variable (C) in
/-- A part of a segment has been received: what is behind it is received next. -/
def Received (s : Session) (bytes : List UInt8) (d : Session) (requests : List (ℕ × Request Command)) : Prop :=
  ∀ rest, receive C s [] (bytes ++ rest) = receive C d requests rest

/-- The stream behind the closing brace of a literal. -/
def behindBrace (content rest : List UInt8) : List UInt8 := [CR, LF] ++ content ++ rest

/-- A segment that ends `m` bytes behind the brace, and the segments behind it. -/
def literalSegments (before content rest : List UInt8) (m : ℕ) (sizes : List ℕ) : List (List UInt8) :=
  (before ++ RBRACE :: (behindBrace content rest).take m) ::
    sizes.splitLengths ((behindBrace content rest).drop m)

variable (C E) in
/-- **The content does not matter**: whatever `n` bytes the literal has, whatever comes behind it and however that
is cut, the same is dispatched and run. -/
def ContentIgnored (s : Session) (before : List UInt8) (n m : ℕ) : Prop :=
  ∀ content content' rest sizes, content.length = n → content'.length = n →
    (Run.run (step C E) s (literalSegments before content rest m sizes)).map
        (fun s => (s.dispatched, s.executed)) =
      (Run.run (step C E) s (literalSegments before content' rest m sizes)).map
        (fun s => (s.dispatched, s.executed))

/-! ## Behind the rejection -/

/-- The receiver waits for a command, or for an argument of a challenge. -/
structure Idle (s : Session) : Prop where
  buf : s.receiver.buf = []
  start : s.receiver.startState = .start
  state : s.receiver.state = .start ∨ ∃ w, isAsciiWhitespace w ∧ s.receiver.state = .argument w

theorem handle_idle {s : Session} (h : Idle s) (request : Request Command) (outcome : Outcome) :
    Idle (handle C s request outcome) := by
  by_cases hc : Challenged request outcome
  · obtain ⟨hc, mechanism, rfl⟩ := hc
    simp only [handle, hc]
    exact ⟨h.buf, h.start, .inr ⟨SP, rfl, rfl⟩⟩
  · have hr := handle_receiver (C := C) s hc
    exact ⟨hr ▸ h.buf, hr ▸ h.start, hr ▸ h.state⟩

theorem execute_idle : ∀ (requests : List (ℕ × Request Command)) {s : Session}, Idle s →
    Idle (execute C E s requests)
  | [], _, h => h
  | (n, request) :: requests, s, h => by
    have hhandle := handle_idle (C := C) (s := s.record request) ⟨h.buf, h.start, h.state⟩ request (E n)
    simp only [execute]
    split
    · exact execute_idle requests hhandle
    · exact hhandle

/-- Blanks and line ends. -/
def Blank (ch : UInt8) : Prop := ch = CR ∨ ch = LF ∨ ch = SP

theorem bracketToken_blank {r : Receiver Command} {ch : UInt8} (h : Blank ch) : r.bracketToken ch = none := by
  rcases h with rfl | rfl | rfl <;> simp +decide [bracketToken]

theorem parse_lineFeed {r : Receiver Command} {w : UInt8} (hs : r.state = .argument w) (hbuf : r.buf = []) :
    r.parseByte LF = .ok r.finish := by
  have hpush : r.pushArgument false = .ok r := by simp [pushArgument, hbuf]
  have htoken : r.bracketToken LF = none := bracketToken_blank (by simp [Blank])
  simp +decide [parseByte, hs, parseArgument, htoken, hpush]

theorem parse_blank {r : Receiver Command} {w ch : UInt8} (hs : r.state = .argument w) (hbuf : r.buf = [])
    (hch : ch = CR ∨ ch = SP) : r.parseByte ch = .ok (.next { r with state := .argument ch }) := by
  have hpush : r.pushArgument false = .ok r := by simp [pushArgument, hbuf]
  have htoken : r.bracketToken ch = none := bracketToken_blank (by rcases hch with rfl | rfl <;> simp [Blank])
  rcases hch with rfl | rfl <;>
    simp +decide [parseByte, hs, parseArgument, htoken, hpush]

theorem parse_start {r : Receiver Command} (hs : r.state = .start) {ch : UInt8} (hch : Blank ch) :
    r.parseByte ch = .ok (.next r) := by
  rcases hch with rfl | rfl | rfl <;> simp +decide [parseByte, hs, parseStart]

theorem Idle.receive_blank {d : Session} (h : Idle d) (requests : List (ℕ × Request Command)) {ch : UInt8}
    (hch : Blank ch) : ∃ d' requests', Idle d' ∧ ∀ bytes,
      receive C d requests (ch :: bytes) = receive C d' requests' bytes := by
  rcases h.state with hs | ⟨w, -, hs⟩
  · refine ⟨d.read ch d.receiver .quiet, requests, ⟨h.buf, h.start, .inl hs⟩, fun bytes => ?_⟩
    exact receive_next (parse_start hs hch) requests bytes
  · by_cases hlf : ch = LF
    · subst hlf
      have hparse := parse_lineFeed hs h.buf
      have hr := (receiveCommand_log (C := C) d LF d.receiver.taken d.receiver.request).2
      refine ⟨(d.receiveCommand C LF d.receiver.taken d.receiver.request).1,
        requests ++ (d.receiveCommand C LF d.receiver.taken d.receiver.request).2,
        ⟨by rw [hr]; exact h.buf, by rw [hr]; exact h.start, .inl (by rw [hr]; exact h.start)⟩, fun bytes => ?_⟩
      exact receive_done hparse requests bytes
    · have hblank : ch = CR ∨ ch = SP := by
        rcases hch with rfl | rfl | rfl
        · exact .inl rfl
        · exact absurd rfl hlf
        · exact .inr rfl
      have hparse := parse_blank hs h.buf hblank
      refine ⟨d.read ch { d.receiver with state := .argument ch } .quiet, requests,
        ⟨h.buf, h.start, .inr ⟨ch, ?_, rfl⟩⟩, fun bytes => ?_⟩
      · rcases hch with rfl | rfl | rfl <;> decide
      · exact receive_next hparse requests bytes

theorem Idle.receive_blanks {d : Session} (h : Idle d) (requests : List (ℕ × Request Command)) :
    ∀ {blanks : List UInt8}, (∀ ch ∈ blanks, Blank ch) → ∃ d' requests', Idle d' ∧ ∀ bytes,
      receive C d requests (blanks ++ bytes) = receive C d' requests' bytes
  | [], _ => ⟨d, requests, h, fun _ => rfl⟩
  | ch :: blanks, hblanks => by
    obtain ⟨d', requests', h', hone⟩ := h.receive_blank (C := C) requests (hblanks ch mem_cons_self)
    obtain ⟨d'', requests'', h'', hrest⟩ := h'.receive_blanks requests' fun ch hch =>
      hblanks ch (mem_cons_of_mem _ hch)
    exact ⟨d'', requests'', h'', fun bytes => (hone _).trans (hrest bytes)⟩

theorem dispatched_quiet (s : Session) (ch : UInt8) (r : Receiver Command) :
    (s.read ch r .quiet).dispatched = s.dispatched := by
  simp [dispatched, read]

theorem dispatched_snoc {s t : Session} {state : ImapProto.State} {ch : UInt8} {event : Event}
    (h : t.log = s.log ++ [⟨state, ch, event⟩]) (hevent : event ≠ .quiet) :
    t.dispatched = s.dispatched ++ [event] := by
  simp [dispatched, h, hevent]

theorem verdict_ne_quiet (s : Session) (request : Request Command) : verdict C s request ≠ .quiet := by
  unfold verdict
  split <;> simp

theorem verdict_request {s s' : Session} {request request' : Request Command}
    (h : verdict C s request = verdict C s' request') : request = request' := by
  unfold verdict at h
  split at h <;> split at h <;> simp_all

theorem errorEvent_ne (error : Error) (s : Session) (request : Request Command) :
    errorEvent error ≠ .quiet ∧ errorEvent error ≠ verdict C s request := by
  unfold verdict
  cases error <;> split <;> simp [errorEvent]

abbrev LETTER : UInt8 := 120

theorem parse_letter_line {r : Receiver Command} (hs : r.state = .argument LETTER) (hbuf : r.buf = [LETTER]) :
    (∃ r', r.parseByte LF =
      .ok (.done { r.request with tokens := r.request.tokens ++ [.argument [LETTER]] } r')) ∨
    ∃ error r', r.parseByte LF = .error (error, r') := by
  have htoken : r.bracketToken LF = none := bracketToken_blank (by simp [Blank])
  have hparse : r.parseByte LF = (r.pushArgument false).bind fun r' => .ok r'.finish := by
    simp +decide [parseByte, hs, parseArgument, htoken]
    rfl
  rw [hparse]
  unfold pushArgument charge
  rw [if_pos (by simp [hbuf])]
  by_cases hsize : r.currentRequestSize + r.buf.length > r.maxRequestSize
  · right
    simp only [if_pos hsize]
    exact ⟨_, _, rfl⟩
  · left
    simp only [if_neg hsize]
    exact ⟨_, by rw [hbuf]; rfl⟩

/-- **A letter shows** where a blank does not, as soon as the line ends. -/
theorem Idle.letter_shows {d : Session} (h : Idle d) (requests : List (ℕ × Request Command)) :
    (receive C d requests [SP, LF]).1.dispatched ≠ (receive C d requests [LETTER, LF]).1.dispatched := by
  have hbuf := h.buf
  rcases h.state with hs | ⟨w, -, hs⟩
  · -- the letter begins a tag
    have hletter : d.receiver.parseByte LETTER = .ok (.next { d.receiver with buf := [LETTER], state := .tag }) := by
      simp +decide [parseByte, hs, parseStart, pushUnchecked, hbuf]
    obtain ⟨error, r, hline⟩ : ∃ error r, parseByte
        (d.read LETTER { d.receiver with buf := [LETTER], state := .tag } .quiet).receiver LF = .error (error, r) := by
      simp +decide [parseByte, parseTag, errorReset, read]
    rw [receive_next (parse_start hs (.inr (.inr rfl))), receive_next (r := d.receiver)
      (parse_start (r := (d.read SP d.receiver .quiet).receiver) hs (.inr (.inl rfl))), receive_next hletter,
      receive_error hline]
    have hright := dispatched_snoc (t := (d.read LETTER { d.receiver with buf := [LETTER], state := .tag }
      .quiet).read LF r (errorEvent error)) rfl (errorEvent_ne error d d.receiver.request (C := C)).1
    rw [hright]
    simp only [receive, dispatched_quiet]
    simp
  · -- the letter is one argument more
    have hblank := parse_blank hs hbuf (.inr rfl)
    have hletter : d.receiver.parseByte LETTER =
        .ok (.next { d.receiver with buf := [LETTER], state := .argument LETTER }) := by
      have htoken : d.receiver.bracketToken LETTER = none := by simp +decide [bracketToken]
      simp +decide [parseByte, hs, parseArgument, htoken, pushChecked,
        pushUnchecked, hbuf]
    rw [receive_next hblank, receive_done (parse_lineFeed
      (r := (d.read SP { d.receiver with state := .argument SP } .quiet).receiver) rfl hbuf), receive_next hletter]
    have hleft := dispatched_snoc (receiveCommand_log (C := C)
      (d.read SP { d.receiver with state := .argument SP } .quiet) LF
      (d.read SP { d.receiver with state := .argument SP } .quiet).receiver.taken d.receiver.request).1
      (verdict_ne_quiet _ _)
    rcases parse_letter_line (r := (d.read LETTER { d.receiver with buf := [LETTER], state := .argument LETTER }
      .quiet).receiver) rfl rfl with ⟨r, hline⟩ | ⟨error, r, hline⟩
    · have hright := dispatched_snoc (receiveCommand_log (C := C)
        (d.read LETTER { d.receiver with buf := [LETTER], state := .argument LETTER } .quiet) LF r
        { d.receiver.request with tokens := d.receiver.request.tokens ++ [.argument [LETTER]] }).1
        (verdict_ne_quiet _ _)
      rw [receive_done hline]
      intro heq
      have hevents := (hleft.symm.trans heq).trans hright
      simp only [dispatched_quiet, append_cancel_left_eq, List.cons.injEq, and_true] at hevents
      have htokens := congrArg Request.tokens (verdict_request hevents)
      simp at htokens
    · have hright := dispatched_snoc (t := read
        (d.read LETTER { d.receiver with buf := [LETTER], state := .argument LETTER } .quiet) LF r (errorEvent error))
        rfl (errorEvent_ne error d d.receiver.request (C := C)).1
      rw [receive_error hline]
      intro heq
      have hevents := (hleft.symm.trans heq).trans hright
      simp only [dispatched_quiet, append_cancel_left_eq, List.cons.injEq, and_true] at hevents
      exact (errorEvent_ne error _ _).2 hevents.symm

/-! ## The segment of the brace, and those behind it -/

theorem parseLiteral_brace {r r' : Receiver Command} {nonSync : Bool} {error : Error}
    (hs : r.state = .literal nonSync) (h : r.parseByte RBRACE = .error (error, r')) : r' = r.reset := by
  simp only [parseByte, hs, parseLiteral, if_true] at h
  split at h
  · split at h
    · exact (Prod.mk.inj (Except.error.inj h)).2.symm
    · split at h
      · exact (Prod.mk.inj (Except.error.inj h)).2.symm
      · cases h
  · exact (Prod.mk.inj (Except.error.inj h)).2.symm

variable {s d : Session} {before : List UInt8} {requests : List (ℕ × Request Command)} {error : Error}
  {r : Receiver Command}

theorem ingest_rejected (hreceived : Received C s before d requests)
    (hrejected : d.receiver.parseByte RBRACE = .error (error, r)) (rest : List UInt8) :
    ingest C E s (before ++ RBRACE :: rest) =
      execute C E (d.read RBRACE r (errorEvent error)) requests := by
  rw [ingest, hreceived, receive_error hrejected]

theorem run_literalSegments (hcontinues : s.status = .continues) (hreceived : Received C s before d requests)
    (hrejected : d.receiver.parseByte RBRACE = .error (error, r)) (content rest : List UInt8) (m : ℕ)
    (sizes : List ℕ) :
    Run.run (step C E) s (literalSegments before content rest m sizes) =
      Run.run (step C E) (execute C E (d.read RBRACE r (errorEvent error)) requests)
        (sizes.splitLengths ((behindBrace content rest).drop m)) := by
  have hstep : step C E s (before ++ RBRACE :: (behindBrace content rest).take m) =
      some (execute C E (d.read RBRACE r (errorEvent error)) requests) := by
    simp [step, arrive, hcontinues, ingest_rejected hreceived hrejected]
  simp [literalSegments, Run.run, hstep]

theorem run_ended {t : Session} (h : t.arrive = none) : ∀ {segments segments' : List (List UInt8)},
    segments.length = segments'.length → Run.run (step C E) t segments = Run.run (step C E) t segments'
  | [], [], _ => rfl
  | _ :: _, _ :: _, _ => by simp [Run.run, step, h]

theorem drop_behindBrace {content : List UInt8} {m : ℕ} (h : content.length + 2 ≤ m) (rest : List UInt8) :
    (behindBrace content rest).drop m = rest.drop (m - (content.length + 2)) := by
  have hlen : ([CR, LF] ++ content).length = content.length + 2 := by simp
  rw [behindBrace, drop_append, drop_eq_nil_of_le (by omega)]
  rfl

variable (C E) in
/-- The content does not matter to a session that gets what is behind the first `m` bytes. -/
def IgnoresFrom (s : Session) (n m : ℕ) : Prop :=
  ∀ (content content' rest : List UInt8) (sizes : List ℕ), content.length = n → content'.length = n →
    (Run.run (step C E) s (sizes.splitLengths ((behindBrace content rest).drop m))).map
        (fun s => (s.dispatched, s.executed)) =
      (Run.run (step C E) s (sizes.splitLengths ((behindBrace content' rest).drop m))).map
        (fun s => (s.dispatched, s.executed))

theorem not_ignoresFrom {s' t : Session} {n m : ℕ} (ht : s'.arrive = some t) (hidle : Idle s') (hlt : m - 2 < n) :
    ¬ IgnoresFrom C E s' n m := by
  intro h
  -- blanks, and at the end of the literal either one more or a letter
  obtain ⟨blanks, hdef⟩ : ∃ blanks, blanks = ([CR, LF] ++ List.replicate (n - 1) SP).drop m := ⟨_, rfl⟩
  have hdrop : ∀ ch, (behindBrace (List.replicate (n - 1) SP ++ [ch]) [LF]).drop m = blanks ++ [ch, LF] := by
    intro ch
    have hlen : m ≤ ([CR, LF] ++ List.replicate (n - 1) SP).length := by
      simp only [length_append, length_replicate, length_cons]
      omega
    rw [hdef, behindBrace, ← drop_append_of_le_length hlen]
    simp
  have hblanks : ∀ ch ∈ blanks, Blank ch := by
    intro ch hch
    have hmem := mem_of_mem_drop (hdef ▸ hch)
    simp only [mem_append, mem_cons, mem_replicate] at hmem
    tauto
  obtain ⟨hstatus, hreceiver, -⟩ := arrive_some ht
  have ht' : Idle t := ⟨hreceiver ▸ hidle.buf, hreceiver ▸ hidle.start, hreceiver ▸ hidle.state⟩
  obtain ⟨d', requests', hd', hreceive⟩ := ht'.receive_blanks (C := C) [] hblanks
  have hrun : ∀ ch, Run.run (step C E) s' ([blanks.length + 2].splitLengths (blanks ++ [ch, LF])) =
      some (ingest C E t (blanks ++ [ch, LF])) := by
    intro ch
    have htake : (blanks ++ [ch, LF]).take (blanks.length + 2) = blanks ++ [ch, LF] :=
      take_of_length_le (by simp)
    simp [Run.run, step, ht, htake]
  have hlog : ∀ ch, (ingest C E t (blanks ++ [ch, LF])).dispatched =
      (receive C d' requests' [ch, LF]).1.dispatched := by
    intro ch
    rw [dispatched, ingest_log, hreceive, dispatched]
  have hlen : ∀ ch, (List.replicate (n - 1) SP ++ [ch]).length = n := by
    intro ch
    simp only [length_append, length_replicate, length_singleton]
    omega
  have heq := h _ _ [LF] [blanks.length + 2] (hlen SP) (hlen LETTER)
  rw [hdrop, hdrop, hrun, hrun] at heq
  have hevents := congrArg Prod.fst (Option.some.inj heq)
  simp only [hlog] at hevents
  exact hd'.letter_shows requests' hevents

/-- **Rejected literals**: when the receiver rejects the literal announced in `before`, what is dispatched from
there on does not depend on its content exactly when no byte of the content comes in a later segment, or the
session has ended. -/
theorem content_iff {m : ℕ} (hcontinues : s.status = .continues) (hstart : s.receiver.startState = .start)
    (hreceived : Received C s before d requests) (hliteral : d.receiver.state = .literal true)
    (hrejected : d.receiver.parseByte RBRACE = .error (error, r)) :
    ContentIgnored C E s before (ofDigits d.receiver.buf) m ↔
      ofDigits d.receiver.buf ≤ m - 2 ∨ (ingest C E s (before ++ [RBRACE])).arrive = none := by
  have hrun := run_literalSegments (E := E) hcontinues hreceived hrejected
  have hfirst := ingest_rejected (E := E) hreceived hrejected []
  constructor
  · intro h
    by_contra hn
    obtain ⟨hlt, hopen⟩ := not_or.mp hn
    rw [hfirst] at hopen
    obtain ⟨t, ht⟩ := Option.ne_none_iff_exists'.mp hopen
    have hd := receive_startState (C := C) before s []
    rw [← append_nil before, hreceived] at hd
    have hreset := parseLiteral_brace hliteral hrejected
    refine not_ignoresFrom (C := C) (E := E) ht (execute_idle requests ?_) (Nat.not_le.mp hlt) ?_
    · subst hreset
      exact ⟨rfl, hd.trans hstart, .inl (hd.trans hstart)⟩
    · intro content content' rest sizes hlen hlen'
      rw [← hrun, ← hrun]
      exact h content content' rest sizes hlen hlen'
  · rintro (hle | hended) content content' rest sizes hlen hlen'
    · rw [hrun, hrun]
      rcases Nat.eq_zero_or_pos (ofDigits d.receiver.buf) with hzero | hpos
      · rw [eq_nil_of_length_eq_zero (hlen.trans hzero), eq_nil_of_length_eq_zero (hlen'.trans hzero)]
      · rw [drop_behindBrace (by omega), drop_behindBrace (by omega), hlen, hlen']
    · rw [hfirst] at hended
      rw [hrun, hrun]
      refine congrArg _ (run_ended hended ?_)
      simp

/-- A literal of nine bytes against a limit of three, in one segment with its content. -/
theorem content_ignored : ContentIgnored ⟨true, false, 3⟩ (fun _ => .done) (new 3 true) (ascii "a LOGIN \x7b9+")
    (ofDigits (ascii "9")) 11 :=
  (content_iff (C := ⟨true, false, 3⟩) (s := new 3 true)
    (d := (receive ⟨true, false, 3⟩ (new 3 true) [] (ascii "a LOGIN \x7b9+")).1) 
    rfl rfl (fun _ => rfl) rfl rfl).mpr (.inl (by decide))

/-- **A command in a literal**: where the content comes in a segment of its own, a NOOP in it runs. -/
theorem noop_in_literal : ¬ ContentIgnored ⟨true, false, 3⟩ (fun _ => .done) (new 3 true) (ascii "a LOGIN \x7b9+")
    9 2 := by
  intro h
  have hcontent := h (ascii "b  NOOP\r\n") (List.replicate 9 SP) [] [9] rfl rfl
  have hnoop : (Run.run (step ⟨true, false, 3⟩ fun _ => .done) (new 3 true)
      (literalSegments (ascii "a LOGIN \x7b9+") (ascii "b  NOOP\r\n") [] 2 [9])).map executed =
      some [⟨true, .notAuthenticated 0, ⟨"b", .noop, []⟩⟩] := rfl
  have hexecuted := congrArg (Option.map Prod.snd) hcontent
  simp only [Option.map_map, Function.comp_def] at hexecuted
  rw [hnoop] at hexecuted
  cases hexecuted

end Session

end MailServer.Imap
