import MailServer.ImapProto.Limit

/-!
# Receivers in the middle of a request (`imap-proto/src/receiver.rs`)

* `Clean`: a receiver in its start state has nothing of a request.  Every byte keeps it.
* `not_mem_emits`: a receiver that is not in its start state does not read `a NOOP` as that.
-/

namespace MailServer.ImapProto.Receiver

open MailServer.Lib List

section

variable {T : Type*} [CommandParser T] {r : Receiver T}

structure AtRest (r : Receiver T) : Prop where
  buf : r.buf = []
  request : r.request = default
  size : r.currentRequestSize = 0

/-- What the receiver holds in a state. -/
def HoldsIn (r : Receiver T) : State → Prop
  | .start => AtRest r
  | .tag => r.buf ≠ []
  | .literalData remaining => 0 < remaining
  | _ => True

structure Clean (r : Receiver T) : Prop where
  start : r.startState = .start
  holds : HoldsIn r r.state

def FlowClean : Flow T → Prop
  | .next r => Clean r
  | .done _ r => Clean r

abbrev KeepsClean {α : Type*} (Q : α → Prop) : Res T α → Prop := Post Q fun e => Clean e.2

section

variable (h : r.startState = .start)
include h

theorem clean_reset : Clean r.reset := by
  refine ⟨h, ?_⟩
  change HoldsIn r.reset r.startState
  rw [h]
  exact ⟨rfl, rfl, rfl⟩

theorem clean_taken (hbuf : r.buf = []) : Clean r.taken := by
  refine ⟨h, ?_⟩
  change HoldsIn r.taken r.startState
  rw [h]
  exact ⟨hbuf, rfl, rfl⟩

theorem charge_clean (size : ℕ) :
    KeepsClean (fun r' => r'.startState = .start ∧ r'.buf = r.buf ∧ r'.state = r.state) (r.charge size) :=
  .ite (fun _ => clean_reset h) fun _ => ⟨h, rfl, rfl⟩

theorem pushArgument_clean (inQuote : Bool) :
    KeepsClean (fun r' => r'.startState = .start ∧ r'.buf = []) (r.pushArgument inQuote) := by
  refine .ite (fun _ => (charge_clean h _).bind fun _ h' => ⟨h'.1, rfl⟩) fun hbuf => ?_
  rw [not_not] at hbuf
  exact .ite (fun _ => ⟨h, hbuf⟩) fun _ => ⟨h, hbuf⟩

theorem pushToken_clean (token : Token) :
    KeepsClean (fun r' => r'.startState = .start ∧ r'.state = r.state) (r.pushToken token) :=
  (charge_clean h 1).bind fun _ h' => ⟨h'.1, h'.2.2⟩

theorem pushChecked_clean (byte : UInt8) (limit : ℕ) (message : String) :
    KeepsClean (fun r' => r'.startState = .start ∧ r'.buf = r.buf ++ [byte] ∧ r'.state = r.state)
      (r.pushChecked byte limit message) :=
  .ite (fun _ => ⟨h, rfl, rfl⟩) fun _ => clean_reset h

end

theorem append_ne_nil (buf : List UInt8) (byte : UInt8) : buf ++ [byte] ≠ [] :=
  append_ne_nil_of_right_ne_nil _ (cons_ne_nil _ _)

section

variable (h : Clean r)
include h

theorem parseStart_clean (ch : UInt8) : KeepsClean FlowClean (r.parseStart ch) :=
  .ite (fun _ => ⟨h.start, append_ne_nil _ _⟩) fun _ => h

theorem parseTag_clean (hs : r.state = .tag) (ch : UInt8) : KeepsClean FlowClean (r.parseTag ch) := by
  refine .ite (fun _ => .ite (fun _ => ?_) fun _ => h) fun _ => .ite (fun _ => h) fun _ =>
    .ite (fun _ => clean_reset h.start) fun _ => (pushChecked_clean h.start ch 128 _).bind fun r' h' => ?_
  · cases fromUtf8 r.buf with
    | some tag => exact ⟨h.start, trivial⟩
    | none => exact clean_reset (r := { r with buf := [] }) h.start
  · refine ⟨h'.1, ?_⟩
    rw [h'.2.2, hs, HoldsIn, h'.2.1]
    exact append_ne_nil _ _

theorem parseCommand_clean {uid : Bool} (hs : r.state = .command uid) (isUid : Bool) (ch : UInt8) :
    KeepsClean FlowClean (r.parseCommand isUid ch) := by
  refine .ite (fun _ => (pushChecked_clean h.start _ 15 _).bind fun r' h' => ?_) fun _ =>
    .ite (fun _ => .ite (fun _ => .ite (fun _ => ?_) fun _ => ⟨h.start, trivial⟩) fun _ => h) fun _ => clean_reset h.start
  · refine ⟨h'.1, ?_⟩
    rw [h'.2.2, hs]
    trivial
  · cases (CommandParser.parse r.buf isUid : Option T) with
    | none => exact clean_reset h.start
    | some command => exact .ite (fun _ => ⟨h.start, trivial⟩) fun _ => clean_taken h.start rfl

theorem parseArgument_clean {w : UInt8} (hs : r.state = .argument w) (lastCh ch : UInt8) :
    KeepsClean FlowClean (r.parseArgument lastCh ch) := by
  have hpush := pushArgument_clean h.start false
  refine .ite (fun _ => hpush.bind fun _ h' => ⟨h'.1, trivial⟩) fun _ => .ite (fun _ => ?_) fun _ => ?_
  · refine Post.bind (Q := fun r' : Receiver T => r'.startState = .start) (.ite (fun _ => hpush.mono fun _ h' => h'.1) fun _ => h.start)
      fun _ h' => ⟨h', trivial⟩
  · cases hb : r.bracketToken ch with
    | some token =>
      -- the state stays that of an argument
      have hargument : KeepsClean (fun r' => r'.startState = .start ∧ r'.state = .argument w) (r.pushArgument false) := by
        refine .ite (fun _ => (charge_clean h.start _).bind fun _ h' => ⟨h'.1, h'.2.2.trans hs⟩) fun _ => ?_
        exact .ite (fun _ => ⟨h.start, hs⟩) fun _ => ⟨h.start, hs⟩
      refine hargument.bind fun _ h' => (pushToken_clean h'.1 token).bind fun _ h'' => ⟨h''.1, ?_⟩
      rw [h''.2, h'.2]
      trivial
    | none =>
      exact .ite (fun _ => hpush.bind fun _ h' => clean_taken h'.1 h'.2) fun _ =>
        .ite (fun _ => hpush.bind fun _ h' => ⟨h'.1, trivial⟩) fun _ =>
          (pushChecked_clean h.start ch _ _).bind fun _ h' => ⟨h'.1, trivial⟩

theorem parseQuoted_clean (escaped : Bool) (ch : UInt8) : KeepsClean FlowClean (r.parseQuoted escaped ch) := by
  have hcheck := pushChecked_clean h.start ch ARG_MAX_LEN "Quoted argument too long."
  refine .ite (fun _ => .ite (fun _ => (pushArgument_clean h.start true).bind fun _ h' => ⟨h'.1, trivial⟩) fun _ =>
      hcheck.bind fun _ h' => ⟨h'.1, trivial⟩) fun _ => .ite (fun _ => ?_) fun _ =>
    .ite (fun _ => clean_reset h.start) fun _ => (pushChecked_clean ?_ ch _ _).bind fun _ h' => ⟨h'.1, trivial⟩
  · exact Post.bind (Q := fun r' : Receiver T => r'.startState = .start) (.ite (fun _ => hcheck.mono fun _ h' => h'.1) fun _ => h.start)
      fun _ h' => ⟨h', trivial⟩
  · split <;> exact h.start

theorem parseLiteral_clean {sync : Bool} (hs : r.state = .literal sync) (nonSync : Bool) (ch : UInt8) :
    KeepsClean FlowClean (r.parseLiteral nonSync ch) := by
  refine .ite (fun _ => .ite (fun _ => ?_) fun _ => clean_reset h.start) fun _ =>
    .ite (fun _ => .ite (fun _ => ⟨h.start, trivial⟩) fun _ => clean_reset h.start) fun _ =>
    .ite (fun _ => .ite (fun _ => (pushChecked_clean h.start ch 15 _).bind fun r' h' => ?_) fun _ => clean_reset h.start)
      fun _ => clean_reset h.start
  · cases parseU32 r.buf with
    | none => exact clean_reset h.start
    | some size => exact .ite (fun _ => clean_reset h.start) fun _ => ⟨h.start, trivial⟩
  · refine ⟨h'.1, ?_⟩
    rw [h'.2.2, hs]
    trivial

theorem parseLiteralSeek_clean (size : ℕ) (nonSync : Bool) (ch : UInt8) :
    KeepsClean FlowClean (r.parseLiteralSeek size nonSync ch) := by
  refine .ite (fun _ => ?_) fun _ => .ite (fun _ => clean_reset h.start) fun _ => h
  refine Post.bind (Q := Clean) (.ite (fun hsize => ⟨h.start, hsize⟩) fun _ => ?_) fun _ h' => .ite (fun _ => h') fun _ => h'
  refine (pushToken_clean (r := { r with state := .argument SP }) h.start .nil).mono fun r' h' => ⟨h'.1, ?_⟩
  rw [h'.2]
  trivial

theorem parseLiteralData_clean (remaining : ℕ) (ch : UInt8) :
    KeepsClean FlowClean (r.parseLiteralData remaining ch) :=
  .ite (fun hone => ⟨h.start, Nat.sub_pos_of_lt hone⟩) fun _ =>
    (pushArgument_clean (r := r.pushUnchecked ch) h.start false).bind fun _ h' => ⟨h'.1, trivial⟩

theorem parseByte_clean (ch : UInt8) : KeepsClean FlowClean (r.parseByte ch) := by
  unfold parseByte
  cases hs : r.state with
  | start => exact parseStart_clean h ch
  | tag => exact parseTag_clean h hs ch
  | command isUid => exact parseCommand_clean h hs isUid ch
  | argument lastCh => exact parseArgument_clean h hs lastCh ch
  | argumentQuoted escaped => exact parseQuoted_clean h escaped ch
  | literal nonSync => exact parseLiteral_clean h hs nonSync ch
  | literalSeek size nonSync => exact parseLiteralSeek_clean h size nonSync ch
  | literalData remaining => exact parseLiteralData_clean h remaining ch

theorem Clean.eq_of_start (hs : r.state = .start) : r = withMaxRequestSize r.maxRequestSize := by
  have hrest := h.holds
  rw [hs] at hrest
  obtain ⟨hbuf, hrequest, hsize⟩ := hrest
  have hstart := h.start
  obtain ⟨buf, request, state, max, size, startState⟩ := r
  obtain rfl := hbuf
  obtain rfl := hrequest
  obtain rfl := hsize
  obtain rfl := hs
  obtain rfl := hstart
  rfl

end

end

/-! ## Requests that are completed -/

section

variable {T : Type*} [CommandParser T] {r : Receiver T} {Q : Receiver T → Prop} {ch : UInt8} {bytes : List UInt8}
  {request : Request T}

/-- The requests that bytes complete, up to the first error. -/
def emits (r : Receiver T) : List UInt8 → List (Request T)
  | [] => []
  | ch :: bytes =>
    match r.parseByte ch with
    | .ok (.next r) => r.emits bytes
    | .ok (.done request r) => request :: r.emits bytes
    | .error _ => []

/-- The byte completes nothing. -/
def Goes (Q : Receiver T → Prop) : Flow T → Prop
  | .next r => Q r
  | .done .. => False

abbrev Leads (Q : Receiver T → Prop) : Res T (Flow T) → Prop := Post (Goes Q) fun _ => True

theorem mem_emits_of_leads (h : Leads Q (r.parseByte ch)) (hm : request ∈ r.emits (ch :: bytes)) :
    ∃ r', Q r' ∧ request ∈ r'.emits bytes := by
  rw [emits] at hm
  cases hparse : r.parseByte ch with
  | error e =>
    rw [hparse] at hm
    exact absurd hm not_mem_nil
  | ok flow =>
    rw [hparse] at h hm
    cases flow with
    | next r' => exact ⟨r', h, hm⟩
    | done request r' => exact False.elim h

end

/-! ## A line inside another request -/

section

variable {r : Receiver Command}

def noopRequest : Request Command := ⟨"a", .noop, []⟩

/-- After the `a`. -/
def Started (r : Receiver Command) : State → Prop
  | .tag => 2 ≤ r.buf.length
  | .command _ => ∃ b, r.buf = b ++ [65]
  | .argument _ => r.buf ≠ [] ∨ r.request.tokens ≠ []
  | .argumentQuoted _ => True
  | .literalData remaining => 0 < remaining
  | _ => False

/-- After the blank, and between the letters. -/
def Strays (r : Receiver Command) : State → Prop
  | .command _ => r.request.tag ≠ "a"
  | .argument _ => r.request ≠ noopRequest
  | .argumentQuoted _ => True
  | .literalData remaining => 0 < remaining
  | _ => False

theorem ne_noopRequest_of_tokens {request : Request Command} (h : request.tokens ≠ []) : request ≠ noopRequest := by
  rintro rfl
  exact h rfl

theorem ne_noopRequest_of_tag {request : Request Command} (h : request.tag ≠ "a") : request ≠ noopRequest := by
  rintro rfl
  exact h rfl

theorem bracketToken_plain {ch : UInt8} (h : ch ∉ [LPAREN, RPAREN, LBRACKET, RBRACKET, LT, GT, DOT]) :
    r.bracketToken ch = none := by
  simp only [mem_cons, not_mem_nil, not_or, or_false] at h
  obtain ⟨h₁, h₂, h₃, h₄, h₅, h₆, h₇⟩ := h
  rw [bracketToken, if_neg h₁, if_neg h₂, if_neg h₃, if_neg h₄, if_neg h₅, if_neg h₆, if_neg h₇, ite_self]

theorem pushChecked_leads {byte : UInt8} {limit : ℕ} {message : String} :
    Post (· = r.pushUnchecked byte) (fun _ => True) (r.pushChecked byte limit message) :=
  .ite (fun _ => rfl) fun _ => trivial

theorem pushArgument_leads (inQuote : Bool) :
    Post (fun r' => (r' = r ∧ r.buf = []) ∨ r'.request.tokens ≠ []) (fun _ => True) (r.pushArgument inQuote) := by
  refine .ite (fun _ => ?_) fun hbuf => ?_
  · exact Post.bind (post_true _) fun r' _ => .inr (append_ne_nil_of_right_ne_nil _ (cons_ne_nil _ _))
  · exact .ite (fun _ => .inr (append_ne_nil_of_right_ne_nil _ (cons_ne_nil _ _))) fun _ =>
      .inl ⟨rfl, not_not.mp hbuf⟩

theorem request_pushArgument (inQuote : Bool) (h : r.request ≠ noopRequest) :
    Post (fun r' : Receiver Command => r'.request ≠ noopRequest) (fun _ => True) (r.pushArgument inQuote) := by
  refine (pushArgument_leads inQuote).mono fun r' h' => ?_
  obtain ⟨rfl, -⟩ | h' := h'
  · exact h
  · exact ne_noopRequest_of_tokens h'

theorem parse_ne_noop {b : List UInt8} {isUid : Bool} {command : Command}
    (h : Command.parse (b ++ [65]) isUid = some command) : command ≠ .noop := by
  rintro rfl
  obtain ⟨entry, hfind, hnoop⟩ := Option.map_eq_some_iff.mp h
  have hname : ∀ uid : Bool, ∀ entry ∈ COMMANDS uid, entry.2 = .noop → ascii entry.1 = [78, 79, 79, 80] := by decide
  have hascii := find?_some hfind
  rw [hname isUid entry (mem_of_find?_eq_some hfind) hnoop, beq_iff_eq] at hascii
  have hlast := congrArg List.getLast? hascii
  rw [getLast?_append] at hlast
  cases hlast

theorem parseArgument_letter {w ch : UInt8} (hquote : ch ≠ DQUOTE) (hbrace : ch ≠ LBRACE)
    (htoken : ch ∉ [LPAREN, RPAREN, LBRACKET, RBRACKET, LT, GT, DOT]) (hline : ch ≠ LF)
    (hblank : isAsciiWhitespace ch = false) {Q : Receiver Command → Prop}
    (h : Q { r.pushUnchecked ch with state := .argument ch }) : Leads Q (r.parseArgument w ch) := by
  rw [parseArgument, if_neg fun h => hquote h.1, if_neg fun h => hbrace h.1, bracketToken_plain htoken]
  rw [if_neg hline, hblank]
  refine pushChecked_leads.bind fun r' hr' => ?_
  obtain rfl := hr'
  exact h

theorem started_a (h : Clean r) (hs : r.state ≠ .start) : Leads (fun r' => Started r' r'.state) (r.parseByte 97) := by
  rw [parseByte]
  cases hstate : r.state with
  | start => exact absurd hstate hs
  | tag =>
    have hbuf : r.buf ≠ [] := by
      have := h.holds
      rwa [hstate] at this
    refine pushChecked_leads.bind fun r' hr' => ?_
    obtain rfl := hr'
    change Started _ r.state
    rw [hstate]
    change 2 ≤ (r.buf ++ [97]).length
    rw [length_append, length_singleton]
    have := length_pos_iff.mpr hbuf
    omega
  | command isUid =>
    refine pushChecked_leads.bind fun r' hr' => ?_
    obtain rfl := hr'
    change Started _ r.state
    rw [hstate]
    exact ⟨r.buf, rfl⟩
  | argument lastCh =>
    exact parseArgument_letter (by decide) (by decide) (by decide) (by decide) (by decide) (.inl (append_ne_nil _ _))
  | argumentQuoted escaped =>
    exact pushChecked_leads.bind fun _ _ => trivial
  | literal nonSync =>
    trivial
  | literalSeek size nonSync =>
    trivial
  | literalData remaining =>
    refine .ite (fun hone => Nat.sub_pos_of_lt hone) fun _ => (pushArgument_leads false).bind fun r' hr' => ?_
    obtain ⟨-, hbuf⟩ | hr' := hr'
    · exact absurd hbuf (append_ne_nil _ _)
    · exact .inr hr'

theorem strays_literalData {remaining : ℕ} {ch : UInt8} :
    Leads (fun r' => Strays r' r'.state) (r.parseLiteralData remaining ch) := by
  refine .ite (fun hone => Nat.sub_pos_of_lt hone) fun _ => (pushArgument_leads false).bind fun r' hr' => ?_
  obtain ⟨-, hbuf⟩ | hr' := hr'
  · exact absurd hbuf (append_ne_nil _ _)
  · exact ne_noopRequest_of_tokens hr'

theorem strays_blank (h : Started r r.state) : Leads (fun r' => Strays r' r'.state) (r.parseByte SP) := by
  rw [parseByte]
  cases hstate : r.state with
  | tag =>
    rw [hstate] at h
    have hbuf : r.buf ≠ [] := ne_nil_of_length_pos (Nat.lt_of_lt_of_le (by decide) h)
    rw [parseTag, if_pos hbuf]
    cases htag : fromUtf8 r.buf with
    | none => trivial
    | some tag =>
      rintro rfl
      have hsize := utf8ByteSize_of_fromUtf8 htag
      have hone : "a".utf8ByteSize = 1 := by decide
      have h : 2 ≤ r.buf.length := h
      omega
  | command isUid =>
    rw [hstate] at h
    obtain ⟨b, hb⟩ := h
    have huid : eqIgnoreAsciiCase r.buf (ascii "UID") = false := by
      rw [hb, eqIgnoreAsciiCase, beq_eq_false_iff_ne]
      intro heq
      have hlast := congrArg List.getLast? heq
      rw [map_append, getLast?_append] at hlast
      have hlast : some (toAsciiUppercase 65) = some 68 := hlast
      exact absurd hlast (by decide)
    dsimp only
    rw [parseCommand, if_neg (by decide), if_pos (by decide), if_pos (hb ▸ append_ne_nil b 65), huid]
    cases hparse : (CommandParser.parse r.buf isUid : Option Command) with
    | none => trivial
    | some command =>
      intro heq
      rw [hb] at hparse
      exact parse_ne_noop hparse (congrArg Request.command heq)
  | argument lastCh =>
    rw [hstate] at h
    dsimp only
    rw [parseArgument, if_neg fun h => absurd h.1 (by decide), if_neg fun h => absurd h.1 (by decide),
      bracketToken_plain (by decide)]
    refine (pushArgument_leads false).bind fun r' hr' => ?_
    refine ne_noopRequest_of_tokens ?_
    obtain ⟨rfl, hbuf⟩ | hr' := hr'
    · exact h.resolve_left (not_not.mpr hbuf)
    · exact hr'
  | argumentQuoted escaped =>
    exact pushChecked_leads.bind fun _ _ => trivial
  | literalData remaining => exact strays_literalData
  | start | literal nonSync | literalSeek size nonSync =>
    rw [hstate] at h
    exact False.elim h

theorem strays_letter (h : Strays r r.state) {ch : UInt8} (hch : ch = 78 ∨ ch = 79 ∨ ch = 80) :
    Leads (fun r' => Strays r' r'.state) (r.parseByte ch) := by
  rw [parseByte]
  cases hstate : r.state with
  | command isUid =>
    rw [hstate] at h
    dsimp only
    rw [parseCommand, if_pos (by obtain rfl | rfl | rfl := hch <;> decide)]
    refine pushChecked_leads.bind fun r' hr' => ?_
    obtain rfl := hr'
    change Strays _ r.state
    rw [hstate]
    exact h
  | argument lastCh =>
    rw [hstate] at h
    have hletter : ch ≠ DQUOTE ∧ ch ≠ LBRACE ∧ ch ∉ [LPAREN, RPAREN, LBRACKET, RBRACKET, LT, GT, DOT] ∧ ch ≠ LF ∧
        isAsciiWhitespace ch = false := by
      obtain rfl | rfl | rfl := hch <;> decide
    obtain ⟨h₁, h₂, h₃, h₄, h₅⟩ := hletter
    exact parseArgument_letter h₁ h₂ h₃ h₄ h₅ h
  | argumentQuoted escaped =>
    dsimp only
    rw [parseQuoted, if_neg (by obtain rfl | rfl | rfl := hch <;> decide),
      if_neg (by obtain rfl | rfl | rfl := hch <;> decide), if_neg (by obtain rfl | rfl | rfl := hch <;> decide)]
    exact pushChecked_leads.bind fun _ _ => trivial
  | literalData remaining => exact strays_literalData
  | start | tag | literal nonSync | literalSeek size nonSync =>
    rw [hstate] at h
    exact False.elim h

theorem not_mem_emits_line (h : Strays r r.state) : noopRequest ∉ r.emits [LF] := by
  have hdone : Post (fun
      | .next _ => True
      | .done request _ => request ≠ noopRequest) (fun _ => True) (r.parseByte LF) := by
    rw [parseByte]
    cases hstate : r.state with
    | command isUid =>
      rw [hstate] at h
      dsimp only
      rw [parseCommand, if_neg (by decide), if_pos (by decide)]
      refine .ite (fun _ => .ite (fun _ => ?_) fun _ => trivial) fun _ => trivial
      cases (CommandParser.parse r.buf isUid : Option Command) with
      | none => trivial
      | some command => exact ne_noopRequest_of_tag h
    | argument lastCh =>
      rw [hstate] at h
      dsimp only
      rw [parseArgument, bracketToken_plain (by decide)]
      exact (request_pushArgument false h).bind fun r' hr' => hr'
    | argumentQuoted escaped =>
      trivial
    | literalData remaining => exact .ite (fun _ => trivial) fun _ => (post_true _).bind fun _ _ => trivial
    | start | tag | literal nonSync | literalSeek size nonSync =>
      rw [hstate] at h
      exact False.elim h
  intro hm
  rw [emits] at hm
  cases hparse : r.parseByte LF with
  | error e =>
    rw [hparse] at hm
    exact absurd hm not_mem_nil
  | ok flow =>
    rw [hparse] at hm hdone
    cases flow with
    | next r' => exact absurd hm not_mem_nil
    | done request r' =>
      obtain rfl := mem_singleton.mp hm
      exact hdone rfl

def noopLine : List UInt8 := [97, SP, 78, 79, 79, 80, LF]

theorem not_mem_emits (h : Clean r) (hs : r.state ≠ .start) : noopRequest ∉ r.emits noopLine := by
  intro hm
  obtain ⟨r₁, h₁, hm⟩ := mem_emits_of_leads (started_a h hs) hm
  obtain ⟨r₂, h₂, hm⟩ := mem_emits_of_leads (strays_blank h₁) hm
  obtain ⟨r₃, h₃, hm⟩ := mem_emits_of_leads (strays_letter h₂ (.inl rfl)) hm
  obtain ⟨r₄, h₄, hm⟩ := mem_emits_of_leads (strays_letter h₃ (.inr (.inl rfl))) hm
  obtain ⟨r₅, h₅, hm⟩ := mem_emits_of_leads (strays_letter h₄ (.inr (.inl rfl))) hm
  obtain ⟨r₆, h₆, hm⟩ := mem_emits_of_leads (strays_letter h₅ (.inr (.inr rfl))) hm
  exact not_mem_emits_line h₆ hm

end

end MailServer.ImapProto.Receiver
