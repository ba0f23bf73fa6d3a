import MailServer.ImapProto.Command
import MailServer.Lib.Run

/-!
# The size of a request in memory (`imap-proto/src/receiver.rs`)

The receiver charges the tokens of a request against `max_request_size`.

* `charged`: what the tokens of a request cost.  `held`: what the receiver keeps in memory.
* `Bounded`: the invariant; every token is charged, and every buffer has a limit.
* `next_bounded`: a byte keeps it, unless it closes an empty quoted string, whose `NIL` costs nothing.
* `charged_iff`: the streams of bytes during which every token is charged.
-/

namespace MailServer.ImapProto

open MailServer.Lib List

/-- What a token is charged. -/
def Token.charge : Token → ℕ
  | .argument value => value.length
  | _ => 1

/-- What a token takes: one place in the list, and the bytes of an argument. -/
def Token.held : Token → ℕ
  | .argument value => 1 + value.length
  | _ => 1

def charged (tokens : List Token) : ℕ := (tokens.map Token.charge).sum

theorem charged_snoc (tokens : List Token) (token : Token) :
    charged (tokens ++ [token]) = charged tokens + token.charge := by
  simp [charged]

theorem held_le_charged : ∀ {tokens : List Token}, (∀ v, .argument v ∈ tokens → v ≠ []) →
    (tokens.map Token.held).sum ≤ 2 * charged tokens
  | [], _ => Nat.le_refl _
  | token :: tokens, h => by
    have ih : (tokens.map Token.held).sum ≤ 2 * charged tokens :=
      held_le_charged fun v hv => h v (mem_cons_of_mem _ hv)
    have hone : token.held ≤ 2 * token.charge := by
      cases token with
      | argument v =>
        have hv := length_pos_iff.mpr (h v mem_cons_self)
        simp only [Token.held, Token.charge]
        omega
      | _ => simp [Token.held, Token.charge]
    simp only [charged, map_cons, sum_cons] at ih ⊢
    omega

theorem utf8ByteSize_of_fromUtf8 {buf : List UInt8} {tag : String} (h : fromUtf8 buf = some tag) :
    tag.utf8ByteSize = buf.length := by
  simp only [fromUtf8, String.fromUTF8?] at h
  split at h
  · obtain rfl := Option.some.inj h
    rfl
  · cases h

namespace Receiver

variable {T : Type*} {max : ℕ}

/-- What the receiver holds of the request. -/
def held (r : Receiver T) : ℕ :=
  r.request.tag.utf8ByteSize + (r.request.tokens.map Token.held).sum + r.buf.length

/-- What a receiver may hold, by its limit. -/
def bound (maxRequestSize : ℕ) : ℕ := 3 * maxRequestSize + 8128

/-! ## The invariant -/

/-- What the tokens and the counter are at any time. -/
structure Core (max : ℕ) (r : Receiver T) : Prop where
  tag : r.request.tag.utf8ByteSize ≤ 128
  charged : charged r.request.tokens = r.currentRequestSize
  size : r.currentRequestSize ≤ r.maxRequestSize
  args : ∀ v, .argument v ∈ r.request.tokens → v ≠ []
  start : r.startState = .start ∨ r.startState = .command false
  limit : r.maxRequestSize = max

/-- What the buffer is in each state. -/
def BufOk (r : Receiver T) : Prop :=
  match r.state with
  | .start => r.buf = []
  | .tag => r.buf.length ≤ 128
  | .command _ => r.buf.length ≤ 15
  | .argument _ | .argumentQuoted _ => r.buf.length ≤ ARG_MAX_LEN
  | .literal _ => r.buf.length ≤ 15
  | .literalSeek size _ => r.buf = [] ∧ r.currentRequestSize + size ≤ r.maxRequestSize
  | .literalData remaining =>
    0 < remaining ∧ r.currentRequestSize + r.buf.length + remaining ≤ r.maxRequestSize

structure Bounded (max : ℕ) (r : Receiver T) : Prop extends Core max r where
  buf : BufOk r

/-- The byte ends a quoted string that has nothing in it. -/
def ClosesEmptyQuote (r : Receiver T) (ch : UInt8) : Prop :=
  r.state = .argumentQuoted false ∧ r.buf = [] ∧ ch = DQUOTE

variable {r : Receiver T} {ch : UInt8}

theorem Bounded.held_le (h : Bounded max r) : r.held ≤ bound max := by
  have htokens := held_le_charged h.args
  have htag := h.tag
  have hcharged := h.charged
  have hsize := h.size
  have hlimit := h.limit
  have hbuf : r.buf.length ≤ r.maxRequestSize + 8000 := by
    have hb := h.buf
    unfold BufOk ARG_MAX_LEN at hb
    split at hb
    all_goals first
      | omega
      | (rw [hb]; simp)
      | (rw [hb.1]; simp)
  simp only [held, bound]
  omega

theorem Core.move (h : Core max r) (state : State) (buf : List UInt8) :
    Core max { r with state := state, buf := buf } :=
  ⟨h.tag, h.charged, h.size, h.args, h.start, h.limit⟩

theorem Core.addToken (h : Core max r) (token : Token) (hargs : ∀ v, token = .argument v → v ≠ [])
    (hsize : r.currentRequestSize + token.charge ≤ r.maxRequestSize) :
    Core max { r.addToken token with currentRequestSize := r.currentRequestSize + token.charge } where
  tag := h.tag
  charged := by
    have hsnoc := charged_snoc r.request.tokens token
    rw [h.charged] at hsnoc
    exact hsnoc
  size := hsize
  args v hv := by
    rcases mem_append.mp hv with hv | hv
    · exact h.args v hv
    · exact hargs v (mem_singleton.mp hv).symm
  start := h.start
  limit := h.limit

variable [CommandParser T]

theorem Core.reset (h : Core max r) : Bounded max r.reset where
  tag := Nat.zero_le _
  charged := rfl
  size := Nat.zero_le _
  args v hv := by cases hv
  start := h.start
  limit := h.limit
  buf := by
    rcases h.start with hs | hs <;> simp [BufOk, Receiver.reset, hs]

/-- What an operation of the receiver leaves: a receiver with the property, or the invariant with the error. -/
abbrev Leaves {α : Type*} (max : ℕ) (Q : α → Prop) : Res T α → Prop := Post Q fun e => Bounded max e.2

theorem charge_leaves (h : Core max r) (size : ℕ) :
    Leaves max (fun r' => r' = { r with currentRequestSize := r.currentRequestSize + size } ∧
      r.currentRequestSize + size ≤ r.maxRequestSize) (r.charge size) := by
  refine .ite (fun hlt => ?_) fun hle => ?_
  · exact Core.reset (r := r) h
  · exact ⟨rfl, Nat.not_lt.mp hle⟩

theorem pushArgument_leaves (h : Core max r) (inQuote : Bool) (hq : inQuote → r.buf ≠ []) :
    Leaves max (fun r' => Core max r' ∧ r'.buf = [] ∧ r'.state = r.state) (r.pushArgument inQuote) := by
  refine .ite (fun hbuf => ?_) fun hbuf => .ite (fun hin => absurd (hq hin) hbuf) fun _ => ?_
  · refine (charge_leaves h _).bind ?_
    rintro _ ⟨rfl, hsize⟩
    refine ⟨(h.addToken (.argument r.buf) ?_ hsize).move r.state [], rfl, rfl⟩
    rintro _ ⟨⟩
    exact hbuf
  · exact ⟨h, not_not.mp hbuf, rfl⟩

theorem pushToken_leaves (h : Core max r) {token : Token} (ht : ∀ v, token ≠ .argument v) :
    Leaves max (fun r' => Core max r' ∧ r'.buf = r.buf ∧ r'.state = r.state) (r.pushToken token) := by
  refine (charge_leaves h 1).bind ?_
  rintro _ ⟨rfl, hsize⟩
  have hone : token.charge = 1 := by
    cases token with
    | argument v => exact absurd rfl (ht v)
    | _ => rfl
  rw [← hone] at hsize ⊢
  exact ⟨h.addToken token (fun v hv => absurd hv (ht v)) hsize, rfl, rfl⟩

theorem pushChecked_leaves (h : Core max r) (byte : UInt8) (limit : ℕ) (message : String) :
    Leaves max (fun r' => Core max r' ∧ r'.buf.length ≤ limit ∧ r'.state = r.state) (r.pushChecked byte limit message) := by
  refine .ite (fun hlt => ?_) fun _ => h.reset
  refine ⟨h.move r.state _, ?_, rfl⟩
  simp only [pushUnchecked, length_append, length_singleton]
  omega

/-! ## One byte -/

/-- Where the parser goes on, and where it starts again. -/
def FlowOk (max : ℕ) : Flow T → Prop
  | .next r => Bounded max r
  | .done _ r => Bounded max r

theorem finish_bounded (h : Core max r) (hbuf : r.buf = []) : FlowOk max r.finish where
  tag := Nat.zero_le _
  charged := rfl
  size := Nat.zero_le _
  args v hv := by cases hv
  start := h.start
  limit := h.limit
  buf := by
    rcases h.start with hs | hs <;> simp [BufOk, taken, hs, hbuf]

omit [CommandParser T] in
theorem parseStart_leaves {r : Receiver T} (h : Bounded max r) (hs : r.state = .start) (ch : UInt8) :
    Leaves max (FlowOk max) (r.parseStart ch) := by
  have hbuf : r.buf = [] := by simpa [BufOk, hs] using h.buf
  unfold parseStart
  refine .ite (fun _ => ?_) fun _ => h
  refine ⟨h.toCore.move .tag _, ?_⟩
  simp [BufOk, pushUnchecked, hbuf]

theorem parseTag_leaves (h : Bounded max r) (hs : r.state = .tag) (ch : UInt8) :
    Leaves max (FlowOk max) (r.parseTag ch) := by
  have hbuf : r.buf.length ≤ 128 := by simpa [BufOk, hs] using h.buf
  refine .ite (fun _ => .ite (fun _ => ?_) fun _ => h) fun _ => .ite (fun _ => h) fun _ =>
    .ite (fun _ => h.toCore.reset) fun _ => ?_
  · cases htag : fromUtf8 r.buf with
    | none => exact Core.reset (h.toCore.move r.state [])
    | some tag =>
      have hlen := utf8ByteSize_of_fromUtf8 htag
      exact ⟨⟨by simpa only [hlen] using hbuf, h.charged, h.size, h.args, h.start, h.limit⟩, Nat.zero_le _⟩
  · refine (pushChecked_leaves h.toCore ch 128 _).bind fun r' hr' => ⟨hr'.1, ?_⟩
    simpa [BufOk, hr'.2.2, hs] using hr'.2.1

theorem parseCommand_leaves (h : Bounded max r) {isUid : Bool} (hs : r.state = .command isUid)
    (ch : UInt8) : Leaves max (FlowOk max) (r.parseCommand isUid ch) := by
  refine .ite (fun _ => ?_) fun _ => .ite (fun _ => .ite (fun _ => .ite (fun _ => ?_) fun _ => ?_) fun _ => h)
    fun _ => h.toCore.reset
  · refine (pushChecked_leaves h.toCore _ 15 _).bind fun r' hr' => ⟨hr'.1, ?_⟩
    simpa [BufOk, hr'.2.2, hs] using hr'.2.1
  · cases (CommandParser.parse r.buf isUid : Option T) with
    | none => exact h.toCore.reset
    | some command =>
      have hcore : Core max { r with request := { r.request with command := command }, buf := [] } :=
        ⟨h.tag, h.charged, h.size, h.args, h.start, h.limit⟩
      refine .ite (fun _ => ?_) fun _ => finish_bounded hcore rfl
      exact ⟨hcore.move _ _, Nat.zero_le _⟩
  · exact ⟨h.toCore.move _ [], Nat.zero_le _⟩

theorem bracketToken_ne {token : Token} (h : r.bracketToken ch = some token)
    (v : List UInt8) : token ≠ .argument v := by
  rintro rfl
  simp only [bracketToken] at h
  repeat' split at h
  all_goals cases h

theorem parseArgument_leaves (h : Bounded max r) {lastCh : UInt8} (hs : r.state = .argument lastCh)
    (ch : UInt8) : Leaves max (FlowOk max) (r.parseArgument lastCh ch) := by
  have hpush := pushArgument_leaves h.toCore false (by simp)
  refine .ite (fun _ => ?_) fun _ => .ite (fun _ => ?_) fun _ => ?_
  · refine hpush.bind fun r' hr' => ⟨hr'.1.move _ _, ?_⟩
    simp [BufOk, hr'.2.1]
  · refine Post.bind (.ite (fun _ => hpush) fun _ => ⟨h.toCore.move r.state [], rfl, rfl⟩) fun r' hr' =>
      ⟨hr'.1.move _ _, ?_⟩
    simp [BufOk, hr'.2.1]
  · cases htoken : r.bracketToken ch with
    | some token =>
      refine hpush.bind fun r' hr' => (pushToken_leaves hr'.1 (bracketToken_ne htoken)).bind fun r'' hr'' =>
        ⟨hr''.1, ?_⟩
      simp [BufOk, hr''.2, hr'.2, hs]
    | none =>
      refine .ite (fun _ => ?_) fun _ => .ite (fun _ => ?_) fun _ => ?_
      · exact hpush.bind fun r' hr' => finish_bounded hr'.1 hr'.2.1
      · refine hpush.bind fun r' hr' => ⟨hr'.1.move _ _, ?_⟩
        simp [BufOk, hr'.2]
      · exact (pushChecked_leaves h.toCore ch ARG_MAX_LEN _).bind fun r' hr' => ⟨hr'.1.move _ _, hr'.2.1⟩

theorem parseQuoted_leaves (h : Bounded max r) {escaped : Bool}
    (hs : r.state = .argumentQuoted escaped) (hq : ¬ ClosesEmptyQuote r ch) :
    Leaves max (FlowOk max) (r.parseQuoted escaped ch) := by
  have hbuf : r.buf.length ≤ ARG_MAX_LEN := by simpa [BufOk, hs] using h.buf
  refine .ite (fun hch => .ite (fun hesc => ?_) fun _ => ?_) fun _ => .ite (fun _ => ?_) fun _ =>
    .ite (fun _ => h.toCore.reset) fun _ => ?_
  · have hne : r.buf ≠ [] := fun hnil => hq ⟨by simp_all, hnil, hch⟩
    refine (pushArgument_leaves h.toCore true fun _ => hne).bind fun r' hr' => ⟨hr'.1.move _ _, ?_⟩
    simp [BufOk, hr'.2.1]
  · exact (pushChecked_leaves h.toCore ch _ _).bind fun r' hr' => ⟨hr'.1.move _ _, hr'.2.1⟩
  · refine Post.bind (.ite (fun _ => pushChecked_leaves h.toCore ch _ _) fun _ => ⟨h.toCore, hbuf, rfl⟩)
      fun r' hr' => ⟨hr'.1.move _ _, hr'.2.1⟩
  · have hcore : Core max (if escaped then r.pushUnchecked BACKSLASH else r) := by
      split
      · exact h.toCore.move _ _
      · exact h.toCore
    exact (pushChecked_leaves hcore ch _ _).bind fun r' hr' => ⟨hr'.1.move _ _, hr'.2.1⟩

theorem parseLiteral_leaves (h : Bounded max r) {nonSync : Bool} (hs : r.state = .literal nonSync)
    (ch : UInt8) : Leaves max (FlowOk max) (r.parseLiteral nonSync ch) := by
  have hbuf : r.buf.length ≤ 15 := by simpa [BufOk, hs] using h.buf
  refine .ite (fun _ => .ite (fun _ => ?_) fun _ => h.toCore.reset) fun _ =>
    .ite (fun _ => .ite (fun _ => ⟨h.toCore.move _ _, hbuf⟩) fun _ => h.toCore.reset) fun _ =>
    .ite (fun _ => .ite (fun _ => ?_) fun _ => h.toCore.reset) fun _ => h.toCore.reset
  · cases parseU32 r.buf with
    | none => exact h.toCore.reset
    | some size =>
      refine .ite (fun _ => h.toCore.reset) fun hle => ⟨h.toCore.move _ _, rfl, ?_⟩
      exact Nat.not_lt.mp hle
  · refine (pushChecked_leaves h.toCore ch 15 _).bind fun r' hr' => ⟨hr'.1, ?_⟩
    simpa [BufOk, hr'.2.2, hs] using hr'.2.1

theorem parseLiteralSeek_leaves (h : Bounded max r) {size : ℕ} {nonSync : Bool}
    (hs : r.state = .literalSeek size nonSync) (ch : UInt8) :
    Leaves max (FlowOk max) (r.parseLiteralSeek size nonSync ch) := by
  have hbuf : r.buf = [] ∧ r.currentRequestSize + size ≤ r.maxRequestSize := by
    simpa [BufOk, hs] using h.buf
  refine .ite (fun _ => ?_) fun _ => .ite (fun _ => h.toCore.reset) fun _ => h
  refine Post.bind (Q := Bounded max) (.ite (fun hpos => ⟨h.toCore.move _ _, hpos, ?_⟩) fun _ => ?_) fun r' hr' =>
    .ite (fun _ => hr') fun _ => hr'
  · simpa [hbuf.1] using hbuf.2
  · refine (pushToken_leaves (h.toCore.move (.argument SP) r.buf) (by simp)).mono fun r' hr' => ⟨hr'.1, ?_⟩
    simp [BufOk, hr'.2.1, hr'.2.2, hbuf.1]

theorem parseLiteralData_leaves (h : Bounded max r) {remaining : ℕ}
    (hs : r.state = .literalData remaining)
    (ch : UInt8) : Leaves max (FlowOk max) (r.parseLiteralData remaining ch) := by
  have hbuf : 0 < remaining ∧ r.currentRequestSize + r.buf.length + remaining ≤ r.maxRequestSize := by
    simpa [BufOk, hs] using h.buf
  refine .ite (fun hgt => ⟨h.toCore.move _ _, ?_⟩) fun _ => ?_
  · simp only [BufOk, pushUnchecked, length_append, length_singleton]
    omega
  · refine (pushArgument_leaves (h.toCore.move r.state (r.buf ++ [ch])) false (by simp)).bind fun r' hr' =>
      ⟨hr'.1.move _ _, ?_⟩
    simp [BufOk, hr'.2.1]

/-- **One byte**: the invariant is kept unless the byte closes an empty quoted string. -/
theorem parseByte_leaves (h : Bounded max r) (hq : ¬ ClosesEmptyQuote r ch) :
    Leaves max (FlowOk max) (r.parseByte ch) := by
  unfold parseByte
  cases hs : r.state with
  | start => exact parseStart_leaves h hs ch
  | tag => exact parseTag_leaves h hs ch
  | command isUid => exact parseCommand_leaves h hs ch
  | argument lastCh => exact parseArgument_leaves h hs ch
  | argumentQuoted escaped => exact parseQuoted_leaves h hs hq
  | literal nonSync => exact parseLiteral_leaves h hs ch
  | literalSeek size nonSync => exact parseLiteralSeek_leaves h hs ch
  | literalData remaining => exact parseLiteralData_leaves h hs ch

/-! ## Streams of bytes -/

/-- The receiver after one byte, whatever `parse` returns there. -/
def next (r : Receiver T) (ch : UInt8) : Receiver T :=
  match r.parseByte ch with
  | .ok (.next r) => r
  | .ok (.done _ r) => r
  | .error (_, r) => r

/-- `next` as a step of a run; every byte can be read. -/
def step (r : Receiver T) (ch : UInt8) : Option (Receiver T) := some (r.next ch)

/-- Every token is charged, and the request takes no more than its limit allows. -/
def Charged (max : ℕ) (r : Receiver T) : Prop :=
  charged r.request.tokens ≤ r.currentRequestSize ∧ r.held ≤ bound max

theorem next_bounded (h : Bounded max r) (hq : ¬ ClosesEmptyQuote r ch) :
    Bounded max (r.next ch) := by
  have hpost := parseByte_leaves h hq
  unfold next
  cases hres : r.parseByte ch with
  | error e => simpa [hres] using hpost
  | ok flow =>
    rw [hres] at hpost
    cases flow with
    | next r' => exact hpost
    | done request r' => exact hpost

theorem next_emptyQuote (hq : ClosesEmptyQuote r ch) :
    r.next ch = { r.addToken .nil with state := .argument SP } := by
  obtain ⟨hs, hbuf, rfl⟩ := hq
  simp [next, parseByte, hs, parseQuoted, pushArgument, hbuf]

theorem init_bounded (max : ℕ) {state : State} (hstate : state = .start ∨ state = .command false) :
    Bounded max ((withMaxRequestSize max : Receiver T).withStartState state) where
  tag := Nat.zero_le _
  charged := rfl
  size := Nat.zero_le _
  args v hv := by cases hv
  start := hstate
  limit := rfl
  buf := by
    rcases hstate with rfl | rfl <;> simp [BufOk, withStartState, withMaxRequestSize]

/-- **Every token is charged** throughout a stream of bytes, and the request within its bound, exactly when the
stream never closes an empty quoted string. -/
theorem charged_iff (max : ℕ) {state : State} (hstate : state = .start ∨ state = .command false)
    (bytes : List UInt8) :
    Run.Always step (Charged max) ((withMaxRequestSize max : Receiver T).withStartState state) bytes ↔
      Run.Each step (fun r ch => ¬ ClosesEmptyQuote r ch)
        ((withMaxRequestSize max : Receiver T).withStartState state) bytes := by
  refine Run.always_iff_each (I := Bounded max) ?_ ?_ ?_ (init_bounded max hstate)
  · exact fun r hr => ⟨Nat.le_of_eq hr.charged, hr.held_le⟩
  · rintro r ch _ hr hq ⟨⟩
    exact next_bounded hr hq
  · rintro r ch _ hr hq ⟨⟩ ⟨hcharged, -⟩
    rw [next_emptyQuote (not_not.mp hq)] at hcharged
    simp only [addToken, charged_snoc, hr.charged, Token.charge] at hcharged
    omega

/-- The stream `a LIST (x)` and a line feed. -/
theorem charged_list :
    Run.Always step (Charged 100) ((withMaxRequestSize 100 : Receiver Command).withStartState .start)
      [97, SP, 76, 73, 83, 84, SP, LPAREN, 120, RPAREN, LF] := by
  refine (charged_iff 100 (.inl rfl) _).mpr ?_
  iterate 11
    refine (Run.each_cons rfl).mpr ⟨fun h => ?_, ?_⟩
    · cases h.1
  trivial

/-! ## Empty quoted strings -/

theorem run_emptyQuotes (hs : r.state = .argument SP) (hbuf : r.buf = []) : ∀ n, ∃ r',
    Run.run step r (List.replicate n [DQUOTE, DQUOTE]).flatten = some r' ∧
      r'.request.tokens = r.request.tokens ++ List.replicate n .nil := by
  intro n
  induction n generalizing r with
  | zero => exact ⟨r, rfl, by simp⟩
  | succ n ih =>
    have hopen : r.next DQUOTE = { r with state := .argumentQuoted false } := by
      simp [next, parseByte, hs, parseArgument, pushArgument, hbuf, isAsciiWhitespace]
    have hempty : ClosesEmptyQuote (r.next DQUOTE) DQUOTE := ⟨by rw [hopen], by rw [hopen]; exact hbuf, rfl⟩
    have hclose := next_emptyQuote hempty
    obtain ⟨r', hrun, htokens⟩ := ih (r := (r.next DQUOTE).next DQUOTE) (by rw [hclose])
      (by rw [hclose, hopen]; exact hbuf)
    refine ⟨r', hrun, ?_⟩
    rw [htokens, hclose, hopen, replicate_succ]
    simp [addToken]

/-- **No bound**: whatever the limit, a stream of empty quoted strings makes the receiver hold any number of
tokens. -/
theorem held_unbounded : ¬ ∃ f : ℕ → ℕ, ∀ (max : ℕ) (bytes : List UInt8) (r : Receiver Command),
    Run.run step (withMaxRequestSize max) bytes = some r → r.held ≤ f max := by
  rintro ⟨f, hf⟩
  obtain ⟨r₀, hr₀, hs, hbuf⟩ : ∃ r₀ : Receiver Command,
      Run.run step (withMaxRequestSize 100) (ascii "a LIST ") = some r₀ ∧ r₀.state = .argument SP ∧ r₀.buf = [] :=
    ⟨_, rfl, rfl, rfl⟩
  obtain ⟨r, hr, htokens⟩ := run_emptyQuotes hs hbuf (f 100 + 1)
  have hle := hf 100 (ascii "a LIST " ++ (List.replicate (f 100 + 1) [DQUOTE, DQUOTE]).flatten) r
    (by rw [Run.run_append, hr₀]; exact hr)
  have hheld : (List.map Token.held (List.replicate (f 100 + 1) Token.nil)).sum = f 100 + 1 := by
    simp [Token.held]
  simp only [held, htokens, map_append, sum_append] at hle
  omega

end Receiver

end MailServer.ImapProto
