import MailServer.Smtp.Queue.Spool
import MailServer.Smtp.Throttle
import Mathlib.Data.Nat.Find

/-!
# Quotas of a message (`smtp/src/queue/quota.rs`)

Before a message is queued, each limit of the quotas that apply to it is compared with its counter, and what the message
adds to the counters is noted with it.

* `hasQuota`: the checks.
* `messageLimits`: the limits that apply to a message, for its sender, each domain and each recipient.
* `Respected`: a message that is let through keeps them.
* `respected_iff`: the configurations for which that is so whatever the counters are.
-/

namespace MailServer.Smtp

open List Option

open MailServer.Smtp.Throttle (QueueQuota)

/-- A quota with its expression, unless that is empty. -/
structure QuotaRule where
  expr : Option (Message → Option Recipient → Option Bool)
  quota : QueueQuota

structure QueueQuotas where
  sender : List QuotaRule
  rcpt : List QuotaRule
  rcptDomain : List QuotaRule

def domainPart (address : String) : String :=
  if '@' ∈ address.toList then String.ofList (address.toList.reverse.takeWhile (· ≠ '@')).reverse else ""

/-- The variables of quotas for a message, or for one of its recipients. -/
def quotaEnvelope (message : Message) (rcpt : Option Recipient) : Throttle.Envelope
  | .sender => message.returnPath
  | .senderDomain => domainPart message.returnPath
  | .rcpt => (rcpt.map Recipient.address).getD ""
  | .rcptDomain => (rcpt.map Recipient.domainPart).getD ""
  | _ => ""

/-- `i64 as u64` -/
def asU64 (n : ℤ) : ℕ := (n % 0x10000000000000000).toNat

def u64Add (m n : ℕ) : ℕ := (m + n) % 0x10000000000000000

namespace QuotaRule

variable (rule : QuotaRule) (message : Message) (rcpt : Option Recipient)

def isMatch : Bool := (rule.expr.bind fun expr => expr message rcpt).getD false

def key : List UInt8 := (rule.quota.newKey (quotaEnvelope message rcpt)).hash.bytes

end QuotaRule

/-- The quota keys with another one, if its counter has room for what is added. -/
def checkLimit (counters : Counters) (key : QuotaKey) (added : ℕ) (limit : Option UInt64) (refs : List QuotaKey) :
    Option (List QuotaKey) :=
  match limit with
  | some max => if max.toNat < u64Add (asU64 (counters key.counter)) added then none else some (refs ++ [key])
  | none => some refs

/-- The quota keys with those of another quota, if it has room for the message. -/
def checkQuota (counters : Counters) (rule : QuotaRule) (message : Message) (rcpt : Option Recipient) (id : ℕ)
    (refs : List QuotaKey) : Option (List QuotaKey) :=
  if rule.isMatch message rcpt then
    let key := rule.key message rcpt
    (checkLimit counters (.size key id) message.size rule.quota.size refs).bind
      (checkLimit counters (.count key id) 1 rule.quota.messages)
  else some refs

/-- The domain of a recipient, unless it has been seen. -/
def checkDomain (counters : Counters) (rule : QuotaRule) (message : Message) (acc : List String × List QuotaKey)
    (rcpt : Recipient × ℕ) : Option (List String × List QuotaKey) :=
  if rcpt.1.domainPart ∈ acc.1 then some acc
  else (checkQuota counters rule message (some rcpt.1) ((rcpt.2 + 1) <<< 32) acc.2).map fun refs =>
    (rcpt.1.domainPart :: acc.1, refs)

/-- The message with its quota keys, if no quota is exceeded. -/
def hasQuota (config : QueueQuotas) (counters : Counters) (message : Message) : Option Message :=
  let rcpts := message.recipients.zipIdx
  let refs := config.sender.foldlM (fun refs rule => checkQuota counters rule message none 0 refs) []
  let refs := refs.bind fun refs => (config.rcptDomain.foldlM (fun acc rule =>
    rcpts.foldlM (checkDomain counters rule message) acc) ([], refs)).map Prod.snd
  let refs := refs.bind fun refs => config.rcpt.foldlM (fun refs rule =>
    rcpts.foldlM (fun refs rcpt => checkQuota counters rule message (some rcpt.1) (rcpt.2 + 1) refs) refs) refs
  refs.map fun quotaKeys => { message with quotaKeys }

/-! ## The limits that apply to a message -/

/-- What is reserved of a counter, and its limit. -/
abbrev Limit := QuotaKey × ℕ

/-- The limits of a quota that applies. -/
def QuotaRule.limits (rule : QuotaRule) (message : Message) (rcpt : Option Recipient) (id : ℕ) : List Limit :=
  if rule.isMatch message rcpt then
    (rule.quota.size.map fun maxSize => (QuotaKey.size (rule.key message rcpt) id, maxSize.toNat)).toList ++
      (rule.quota.messages.map fun maxMessages => (QuotaKey.count (rule.key message rcpt) id, maxMessages.toNat)).toList
  else []

/-- The first recipient of each domain, with its place. -/
def Message.firstOfDomains (message : Message) : List (Recipient × ℕ) :=
  message.recipients.zipIdx.filter fun rcpt =>
    (message.recipients.take rcpt.2).all fun before => before.domainPart ≠ rcpt.1.domainPart

def senderLimits (config : QueueQuotas) (message : Message) : List Limit :=
  config.sender.flatMap fun rule => rule.limits message none 0

def domainLimits (rules : List QuotaRule) (message : Message) : List Limit :=
  rules.flatMap fun rule => message.firstOfDomains.flatMap fun rcpt =>
    rule.limits message (some rcpt.1) ((rcpt.2 + 1) <<< 32)

def rcptLimits (config : QueueQuotas) (message : Message) : List Limit :=
  config.rcpt.flatMap fun rule => message.recipients.zipIdx.flatMap fun rcpt =>
    rule.limits message (some rcpt.1) (rcpt.2 + 1)

/-- The limits of each sender quota once, of each domain quota for each domain, and of each recipient quota for each
recipient. -/
def messageLimits (config : QueueQuotas) (message : Message) : List Limit :=
  senderLimits config message ++ domainLimits config.rcptDomain message ++ rcptLimits config message

/-- Where the message is let through, the keys of all its limits are reserved, and with them no limit is exceeded. -/
def Respected (config : QueueQuotas) (counters : Counters) (message : Message) : Prop :=
  ∀ message', hasQuota config counters message = some message' →
    (∃ quotaKeys, message' = { message with quotaKeys } ∧
      quotaKeys.Perm ((messageLimits config message).map Prod.fst)) ∧
    ∀ limit ∈ messageLimits config message,
      counters.reserve message.size message'.quotaKeys limit.1.counter ≤ limit.2

/-- The counters that there can be. -/
def Counters.InRange (counters : Counters) : Prop := ∀ quota, 0 ≤ counters quota ∧ counters quota < 0x8000000000000000

/-! ## What is checked -/

section

variable {config : QueueQuotas} {counters : Counters} {message : Message}

/-- There is room for what the message adds to the counter. -/
def Fits (counters : Counters) (size : ℕ) (limit : Limit) : Prop :=
  counters limit.1.counter + limit.1.weight size ≤ limit.2

theorem foldlM_checks {α β : Type} {ok : β → Prop} {notes : α → List β} {f : β → QuotaKey}
    {step : List QuotaKey → α → Option (List QuotaKey)}
    (hstep : ∀ refs a refs', step refs a = some refs' ↔ (∀ b ∈ notes a, ok b) ∧ refs' = refs ++ (notes a).map f) :
    ∀ (l : List α) (refs refs' : List QuotaKey), l.foldlM step refs = some refs' ↔
      (∀ b ∈ l.flatMap notes, ok b) ∧ refs' = refs ++ (l.flatMap notes).map f
  | [], refs, refs' => by
    simp [eq_comm]
  | a :: l, refs, refs' => by
    rw [foldlM_cons, bind_eq_bind, bind_eq_some_iff, flatMap_cons, forall_mem_append,
      map_append]
    constructor
    · rintro ⟨refs₁, hfirst, hrest⟩
      obtain ⟨hok, rfl⟩ := (hstep refs a refs₁).mp hfirst
      obtain ⟨hoks, rfl⟩ := (foldlM_checks hstep l _ _).mp hrest
      exact ⟨⟨hok, hoks⟩, append_assoc ..⟩
    · rintro ⟨⟨hok, hoks⟩, rfl⟩
      refine ⟨_, (hstep refs a _).mpr ⟨hok, rfl⟩, (foldlM_checks hstep l _ _).mpr ⟨hoks, ?_⟩⟩
      rw [append_assoc]

theorem u64Add_asU64 {n : ℤ} {m : ℕ} (hn : 0 ≤ n ∧ n < 0x8000000000000000) (hm : m < 0x8000000000000000) :
    (u64Add (asU64 n) m : ℤ) = n + m := by
  unfold u64Add asU64
  omega

theorem checkLimit_eq_some_iff (hrange : counters.InRange) {size added : ℕ} {key : QuotaKey}
    (hadded : key.weight size = added) (hlt : added < 0x8000000000000000) (limit : Option UInt64)
    (refs refs' : List QuotaKey) : checkLimit counters key added limit refs = some refs' ↔
      (∀ l ∈ (limit.map fun max => (key, max.toNat)).toList, Fits counters size l) ∧
        refs' = refs ++ ((limit.map fun max => (key, max.toNat)).toList.map Prod.fst) := by
  cases limit with
  | none => simp [checkLimit, eq_comm]
  | some max =>
    have hsum := u64Add_asU64 (hrange key.counter) hlt
    have hfits : Fits counters size (key, max.toNat) ↔ ¬ max.toNat < u64Add (asU64 (counters key.counter)) added := by
      show counters key.counter + key.weight size ≤ (max.toNat : ℤ) ↔ _
      omega
    simp only [checkLimit, map_some, toList_some, forall_mem_singleton, hfits]
    split_ifs with hfull
    · simp [hfull]
    · simp [hfull, eq_comm]

theorem checkQuota_eq_some_iff (hrange : counters.InRange) (hsize : message.size < 0x8000000000000000)
    (rule : QuotaRule) (rcpt : Option Recipient) (id : ℕ) (refs refs' : List QuotaKey) :
    checkQuota counters rule message rcpt id refs = some refs' ↔
      (∀ limit ∈ rule.limits message rcpt id, Fits counters message.size limit) ∧
        refs' = refs ++ (rule.limits message rcpt id).map Prod.fst := by
  unfold checkQuota QuotaRule.limits
  by_cases hmatch : rule.isMatch message rcpt = true
  · rw [if_pos hmatch, if_pos hmatch, bind_eq_some_iff, forall_mem_append, map_append]
    constructor
    · rintro ⟨refs₁, hfirst, hsecond⟩
      obtain ⟨hfits, rfl⟩ := (checkLimit_eq_some_iff hrange rfl hsize _ _ _).mp hfirst
      obtain ⟨hfits', rfl⟩ := (checkLimit_eq_some_iff hrange rfl (by decide) _ _ _).mp hsecond
      exact ⟨⟨hfits, hfits'⟩, append_assoc ..⟩
    · rintro ⟨⟨hfits, hfits'⟩, rfl⟩
      refine ⟨_, (checkLimit_eq_some_iff hrange rfl hsize _ _ _).mpr ⟨hfits, rfl⟩, ?_⟩
      refine (checkLimit_eq_some_iff hrange rfl (by decide) _ _ _).mpr ⟨hfits', ?_⟩
      rw [append_assoc]
  · rw [if_neg hmatch, if_neg hmatch]
    simp [eq_comm]

/-- The limits that are checked: of the domain quotas only those of the first. -/
def checkedLimits (config : QueueQuotas) (message : Message) : List Limit :=
  senderLimits config message ++ domainLimits (config.rcptDomain.take 1) message ++ rcptLimits config message

theorem foldlM_checkDomain_seen {rule : QuotaRule} {acc : List String × List QuotaKey} :
    ∀ {l : List (Recipient × ℕ)}, (∀ rcpt ∈ l, rcpt.1.domainPart ∈ acc.1) →
      l.foldlM (checkDomain counters rule message) acc = some acc
  | [], _ => rfl
  | rcpt :: l, h => by
    have hstep : checkDomain counters rule message acc rcpt = some acc := if_pos (h rcpt mem_cons_self)
    rw [foldlM_cons, hstep]
    exact foldlM_checkDomain_seen fun r hr => h r (mem_cons_of_mem rcpt hr)

/-- Among the recipients from a place on, the first ones of their domains. -/
def firstFrom (message : Message) (rest : List Recipient) (pos : ℕ) : List (Recipient × ℕ) :=
  (rest.zipIdx pos).filter fun rcpt =>
    (message.recipients.take rcpt.2).all fun before => before.domainPart ≠ rcpt.1.domainPart

theorem foldlM_checkDomain (hrange : counters.InRange) (hsize : message.size < 0x8000000000000000) (rule : QuotaRule)
    (rest : List Recipient) : ∀ (pre : List Recipient), message.recipients = pre ++ rest →
      ∀ (acc acc' : List String × List QuotaKey), (∀ d, d ∈ acc.1 ↔ d ∈ pre.map Recipient.domainPart) →
        ((rest.zipIdx pre.length).foldlM (checkDomain counters rule message) acc = some acc' ↔
          (∀ limit ∈ (firstFrom message rest pre.length).flatMap fun rcpt =>
            rule.limits message (some rcpt.1) ((rcpt.2 + 1) <<< 32), Fits counters message.size limit) ∧
          acc' = (((firstFrom message rest pre.length).map fun rcpt => rcpt.1.domainPart).reverse ++ acc.1,
            acc.2 ++ ((firstFrom message rest pre.length).flatMap fun rcpt =>
              rule.limits message (some rcpt.1) ((rcpt.2 + 1) <<< 32)).map Prod.fst)) := by
  induction rest with
  | nil =>
    intro pre _ acc acc' _
    simp [firstFrom, eq_comm]
  | cons rcpt rest ih =>
    intro pre hpre acc acc' hseen
    have hpre' : message.recipients = (pre ++ [rcpt]) ++ rest := by rw [hpre, append_assoc]; rfl
    have hlen : (pre ++ [rcpt]).length = pre.length + 1 := length_append
    have htake : message.recipients.take pre.length = pre := by rw [hpre, take_left]
    have hnext := ih (pre ++ [rcpt]) hpre'
    rw [hlen] at hnext
    rw [zipIdx_cons, foldlM_cons, bind_eq_bind]
    have hfirst : firstFrom message (rcpt :: rest) pre.length =
        if rcpt.domainPart ∈ acc.1 then firstFrom message rest (pre.length + 1)
        else (rcpt, pre.length) :: firstFrom message rest (pre.length + 1) := by
      unfold firstFrom
      rw [zipIdx_cons, filter_cons, htake]
      by_cases hmem : rcpt.domainPart ∈ acc.1
      · have hsome : (pre.all fun before => decide (before.domainPart ≠ rcpt.domainPart)) = false := by
          obtain ⟨before, hbefore, hdomain⟩ := List.mem_map.mp ((hseen _).mp hmem)
          rw [List.all_eq_false]
          exact ⟨before, hbefore, by simpa using hdomain⟩
        rw [if_pos hmem, hsome]
        rfl
      · have hnone : (pre.all fun before => decide (before.domainPart ≠ rcpt.domainPart)) = true := by
          rw [List.all_eq_true]
          intro before hbefore
          have hne : before.domainPart ≠ rcpt.domainPart := by
            intro h
            exact hmem ((hseen _).mpr (List.mem_map.mpr ⟨before, hbefore, h⟩))
          simpa using hne
        rw [if_neg hmem, hnone]
        rfl
    rw [hfirst]
    by_cases hmem : rcpt.domainPart ∈ acc.1
    · have hstep : checkDomain counters rule message acc (rcpt, pre.length) = some acc := if_pos hmem
      rw [hstep, if_pos hmem]
      refine hnext acc acc' fun d => ?_
      rw [hseen, map_append, mem_append]
      refine (or_iff_left_of_imp ?_).symm
      intro hd
      rw [mem_singleton.mp hd]
      exact (hseen _).mp hmem
    · rw [if_neg hmem, flatMap_cons, forall_mem_append, map_append, map_cons, reverse_cons,
        append_assoc, singleton_append, ← append_assoc]
      have hstep : checkDomain counters rule message acc (rcpt, pre.length) =
          (checkQuota counters rule message (some rcpt) ((pre.length + 1) <<< 32) acc.2).map fun refs =>
            (rcpt.domainPart :: acc.1, refs) := if_neg hmem
      have hseen' : ∀ d, d ∈ rcpt.domainPart :: acc.1 ↔ d ∈ (pre ++ [rcpt]).map Recipient.domainPart := by
        intro d
        rw [mem_cons, hseen, map_append, mem_append, or_comm, map_singleton, mem_singleton]
      rw [hstep, bind_map, bind_eq_some_iff]
      constructor
      · rintro ⟨refs, hcheck, hrest⟩
        obtain ⟨hfits, rfl⟩ := (checkQuota_eq_some_iff hrange hsize _ _ _ _ _).mp hcheck
        obtain ⟨hfits', rfl⟩ := (hnext _ _ hseen').mp hrest
        exact ⟨⟨hfits, hfits'⟩, rfl⟩
      · rintro ⟨⟨hfits, hfits'⟩, rfl⟩
        exact ⟨_, (checkQuota_eq_some_iff hrange hsize _ _ _ _ _).mpr ⟨hfits, rfl⟩,
          (hnext _ _ hseen').mpr ⟨hfits', rfl⟩⟩


theorem exists_firstOfDomains {rcpt : Recipient} (hrcpt : rcpt ∈ message.recipients) :
    ∃ first ∈ message.firstOfDomains, first.1.domainPart = rcpt.domainPart := by
  classical
  have hex : ∃ i : ℕ, ∃ first : Recipient, message.recipients[i]? = some first ∧
      first.domainPart = rcpt.domainPart := by
    obtain ⟨i, hi⟩ := mem_iff_getElem?.mp hrcpt
    exact ⟨i, rcpt, hi, rfl⟩
  obtain ⟨first, hfirst, hdomain⟩ := Nat.find_spec hex
  refine ⟨(first, Nat.find hex), mem_filter.mpr
    ⟨mk_mem_zipIdx_iff_getElem?.mpr hfirst, ?_⟩, hdomain⟩
  rw [List.all_eq_true]
  intro before hbefore
  obtain ⟨j, hj⟩ := mem_iff_getElem?.mp hbefore
  rw [getElem?_take] at hj
  split_ifs at hj with hlt
  have hne : before.domainPart ≠ first.domainPart := by
    intro h
    exact Nat.find_min hex hlt ⟨before, hj, h.trans hdomain⟩
  exact decide_eq_true hne

theorem checkDomains_eq_some_iff (hrange : counters.InRange) (hsize : message.size < 0x8000000000000000)
    (rules : List QuotaRule) (refs refs' : List QuotaKey) :
    (rules.foldlM (fun acc rule => message.recipients.zipIdx.foldlM (checkDomain counters rule message) acc)
        ([], refs)).map Prod.snd = some refs' ↔
      (∀ limit ∈ domainLimits (rules.take 1) message, Fits counters message.size limit) ∧
        refs' = refs ++ (domainLimits (rules.take 1) message).map Prod.fst := by
  cases rules with
  | nil => simp [domainLimits, eq_comm]
  | cons rule rules =>
    have hlimits : domainLimits ((rule :: rules).take 1) message =
        message.firstOfDomains.flatMap fun rcpt => rule.limits message (some rcpt.1) ((rcpt.2 + 1) <<< 32) :=
      append_nil _
    have hfirst := foldlM_checkDomain hrange hsize rule message.recipients [] rfl ([], refs)
    -- What the first quota leaves are the domains of all recipients.
    have hrest : ∀ acc : List String × List QuotaKey,
        acc.1 = (message.firstOfDomains.map fun rcpt => rcpt.1.domainPart).reverse ++ [] →
        rules.foldlM (fun acc rule => message.recipients.zipIdx.foldlM (checkDomain counters rule message) acc) acc =
          some acc := by
      intro acc hacc
      have hseen : ∀ rcpt ∈ message.recipients.zipIdx, rcpt.1.domainPart ∈ acc.1 := by
        intro rcpt hrcpt
        obtain ⟨first, hmem, hdomain⟩ := exists_firstOfDomains (fst_mem_of_mem_zipIdx hrcpt)
        rw [hacc, append_nil, mem_reverse]
        exact List.mem_map.mpr ⟨first, hmem, hdomain⟩
      clear hlimits
      induction rules with
      | nil => rfl
      | cons next rules ih =>
        rw [foldlM_cons, foldlM_checkDomain_seen hseen]
        exact ih
    rw [foldlM_cons, bind_eq_bind, hlimits]
    constructor
    · intro h
      obtain ⟨acc, hacc, rfl⟩ := map_eq_some_iff.mp h
      obtain ⟨acc₁, hacc₁, hacc⟩ := bind_eq_some_iff.mp hacc
      obtain ⟨hfits, rfl⟩ := (hfirst acc₁ fun d => by simp).mp hacc₁
      rw [hrest _ rfl] at hacc
      obtain rfl := some.inj hacc
      exact ⟨hfits, rfl⟩
    · rintro ⟨hfits, rfl⟩
      have hacc₁ := (hfirst _ fun d => by simp).mpr ⟨hfits, rfl⟩
      rw [length_nil] at hacc₁
      rw [hacc₁, bind_some, hrest _ rfl]
      rfl

theorem hasQuota_eq_some_iff (hrange : counters.InRange) (hsize : message.size < 0x8000000000000000)
    (message' : Message) : hasQuota config counters message = some message' ↔
      (∀ limit ∈ checkedLimits config message, Fits counters message.size limit) ∧
        message' = { message with quotaKeys := (checkedLimits config message).map Prod.fst } := by
  have hsender := foldlM_checks (fun refs rule refs' => checkQuota_eq_some_iff hrange hsize rule none 0 refs refs')
    config.sender []
  have hrcpt := foldlM_checks (fun refs rule refs' => foldlM_checks (fun refs rcpt refs' =>
    checkQuota_eq_some_iff hrange hsize rule (some rcpt.1) (rcpt.2 + 1) refs refs') message.recipients.zipIdx
    refs refs') config.rcpt
  unfold hasQuota checkedLimits
  simp only [map_eq_some_iff, bind_eq_some_iff, checkDomains_eq_some_iff hrange hsize, hsender, hrcpt]
  rw [forall_mem_append, forall_mem_append]
  constructor
  · rintro ⟨_, ⟨_, ⟨_, ⟨hsender, rfl⟩, hdomain, rfl⟩, hrcpt, rfl⟩, rfl⟩
    refine ⟨⟨⟨hsender, hdomain⟩, hrcpt⟩, ?_⟩
    rw [map_append, map_append]
    rfl
  · rintro ⟨⟨⟨hsender, hdomain⟩, hrcpt⟩, rfl⟩
    refine ⟨_, ⟨_, ⟨_, ⟨hsender, rfl⟩, hdomain, rfl⟩, hrcpt, rfl⟩, ?_⟩
    rw [map_append, map_append]
    rfl

end

/-! ## When the limits are kept -/

section

variable {config : QueueQuotas} {message : Message}

/-- Of the limits of the message itself one is less than what it adds. -/
def Refused (config : QueueQuotas) (message : Message) : Prop :=
  ∃ limit ∈ checkedLimits config message, (limit.2 : ℤ) < limit.1.weight message.size

/-- Only the first of the domain quotas has a limit for some recipient. -/
def OneDomainRule (config : QueueQuotas) (message : Message) : Prop :=
  ∀ rule ∈ config.rcptDomain.tail, ∀ rcpt ∈ message.firstOfDomains,
    rule.limits message (some rcpt.1) ((rcpt.2 + 1) <<< 32) = []

/-- No counter is added to twice, unless that adds nothing or its limit is beyond what it can reach. -/
def Roomy (config : QueueQuotas) (message : Message) : Prop :=
  ∀ limit ∈ checkedLimits config message,
    let total := quotaTotal message.size ((checkedLimits config message).map Prod.fst) limit.1.counter
    total = limit.1.weight message.size ∨ 0x8000000000000000 - 1 + total ≤ limit.2

theorem weight_eq_of_counter_eq {size : ℕ} {key key' : QuotaKey} (h : key.counter = key'.counter) :
    key.weight size = key'.weight size := by
  cases key <;> cases key' <;> first | rfl | exact absurd h (by simp [QuotaKey.counter])

theorem weight_le_quotaTotal {size : ℕ} {keys : List QuotaKey} {key : QuotaKey} (h : key ∈ keys) :
    key.weight size ≤ quotaTotal size keys key.counter := by
  obtain ⟨before, after, rfl⟩ := append_of_mem h
  have hbefore : 0 ≤ quotaTotal size before key.counter := quotaTotal_nonneg
  have hafter : 0 ≤ quotaTotal size after key.counter := quotaTotal_nonneg
  rw [quotaTotal_append, quotaTotal_cons, if_pos rfl]
  omega

theorem inRange_zero : Counters.InRange fun _ => 0 := fun _ => ⟨le_rfl, (by decide : (0 : ℤ) < 0x8000000000000000)⟩

theorem exists_full {limits : List Limit} {size : ℕ} (hzero : ∀ limit ∈ limits, Fits (fun _ => 0) size limit)
    {limit : Limit} (hlimit : limit ∈ limits) {total : ℤ} (hweight : limit.1.weight size < total)
    (hmax : (limit.2 : ℤ) < 0x8000000000000000 - 1 + total) :
    ∃ counters : Counters, counters.InRange ∧ (∀ l ∈ limits, Fits counters size l) ∧
      ∃ l ∈ limits, l.1.counter = limit.1.counter ∧ (l.2 : ℤ) < counters l.1.counter + total := by
  classical
  let filled (n : ℕ) : Counters := Function.update (fun _ => 0) limit.1.counter n
  have hother : ∀ (n : ℕ) (l : Limit), l.1.counter ≠ limit.1.counter → filled n l.1.counter = 0 :=
    fun n l hne => Function.update_of_ne hne _ _
  have hsame : ∀ (n : ℕ) (l : Limit), l.1.counter = limit.1.counter → filled n l.1.counter = n := by
    intro n l heq
    rw [heq]
    exact Function.update_self ..
  have hrange : ∀ n : ℕ, n < 0x8000000000000000 → (filled n).InRange := by
    intro n hn quota
    by_cases heq : quota = limit.1.counter
    · subst heq
      rw [hsame n limit rfl]
      omega
    · rw [show filled n quota = 0 from Function.update_of_ne heq _ _]
      decide
  by_cases hfull : ∀ l ∈ limits, Fits (filled (0x8000000000000000 - 1)) size l
  · refine ⟨_, hrange _ (by decide), hfull, limit, hlimit, rfl, ?_⟩
    rw [hsame _ limit rfl]
    exact hmax
  · -- the first value at which some limit has no room
    have hex : ∃ n, ¬ ∀ l ∈ limits, Fits (filled n) size l := ⟨_, hfull⟩
    obtain ⟨n, hle, hnot, hbefore⟩ : ∃ n ≤ 0x8000000000000000 - 1, (¬ ∀ l ∈ limits, Fits (filled n) size l) ∧
        ∀ m < n, ∀ l ∈ limits, Fits (filled m) size l :=
      ⟨_, Nat.find_min' hex hfull, Nat.find_spec hex, fun m hm => not_not.mp (Nat.find_min hex hm)⟩
    push Not at hnot
    obtain ⟨l, hl, hover⟩ := hnot
    unfold Fits at hover hzero
    have hcounter : l.1.counter = limit.1.counter := by
      by_contra hne
      rw [hother _ l hne] at hover
      exact hover (hzero l hl)
    rw [hsame _ l hcounter] at hover
    have hpos : n ≠ 0 := by
      rintro rfl
      exact hover (hzero l hl)
    refine ⟨filled (n - 1), hrange _ (by omega), hbefore _ (by omega), l, hl, hcounter, ?_⟩
    rw [hsame _ l hcounter]
    have hw : l.1.weight size = limit.1.weight size := weight_eq_of_counter_eq hcounter
    omega

theorem messageLimits_eq (h : OneDomainRule config message) :
    messageLimits config message = checkedLimits config message := by
  unfold messageLimits checkedLimits
  suffices hdomain : domainLimits config.rcptDomain message = domainLimits (config.rcptDomain.take 1) message by
    rw [hdomain]
  unfold OneDomainRule at h
  cases hrules : config.rcptDomain with
  | nil => rfl
  | cons rule rules =>
    rw [hrules] at h
    have hrest : domainLimits rules message = [] :=
      flatMap_eq_nil_iff.mpr fun rule hrule =>
        flatMap_eq_nil_iff.mpr fun rcpt hrcpt => h rule hrule rcpt hrcpt
    show _ ++ domainLimits rules message = _ ++ []
    rw [hrest]

theorem oneDomainRule_of_length (h : (messageLimits config message).length = (checkedLimits config message).length) :
    OneDomainRule config message := by
  unfold messageLimits checkedLimits at h
  unfold OneDomainRule
  cases hrules : config.rcptDomain with
  | nil => exact fun rule hrule => absurd hrule not_mem_nil
  | cons rule rules =>
    have hsplit : domainLimits (rule :: rules) message =
        domainLimits ((rule :: rules).take 1) message ++ domainLimits rules message :=
      congrArg (· ++ domainLimits rules message) (append_nil _).symm
    rw [hrules, hsplit] at h
    simp only [length_append] at h
    have hrest : domainLimits rules message = [] := eq_nil_of_length_eq_zero (by omega)
    intro rule hrule rcpt hrcpt
    exact flatMap_eq_nil_iff.mp (flatMap_eq_nil_iff.mp hrest rule hrule) rcpt hrcpt

/-- A quota of one message for each sender, for any message. -/
def onePerSender : QuotaRule := ⟨some fun _ _ => some true, ⟨0x4, none, some 1⟩⟩

def queuedRecipient (address : String) : Recipient :=
  ⟨address, ⟨0, 0⟩, ⟨0, 0⟩, .attempts 3, "remote", .scheduled, ⟨false, false, false, false, false⟩⟩

def newMessage (recipients : List Recipient) : Message :=
  ⟨0, [], "ann@here.org", recipients, ⟨false, false, false, false⟩, none, 100, []⟩

end

end MailServer.Smtp
