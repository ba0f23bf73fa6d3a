import Mathlib.Order.Bounds.Basic
import Mathlib.Tactic.Common

/-!
# Schedules (`utils/src/cron.rs`)

* `SimpleCron.timeToNext`: how long until a schedule is due.  A local time is its nanoseconds since midnight of the
  first day of 1970, a Thursday, where the local clock has a constant offset; the range of dates has no end.
* `SimpleCron.fromStr`: a schedule from its text.
* `SimpleCron.isLeast_iff`: when the schedule is due next at the time that the source waits for.
* `SimpleCron.weekly_iff`: which weekly schedules are accepted.
-/

namespace MailServer.Utils

inductive SimpleCron where
  | day (hour minute : ℕ)
  | week (day hour minute : ℕ)
  | hour (minute : ℕ)
  deriving DecidableEq

namespace SimpleCron

/-! ## Local time -/

def minuteLength : ℤ := 60000000000

def hourLength : ℤ := 3600000000000

def dayLength : ℤ := 86400000000000

/-- `Datelike::weekday().number_from_monday()` -/
def weekday (now : ℤ) : ℕ :=
  ((now / dayLength + 3) % 7 + 1).toNat

def hourOf (now : ℤ) : ℕ :=
  (now % dayLength / hourLength).toNat

def minuteOf (now : ℤ) : ℕ :=
  (now % hourLength / minuteLength).toNat

/-- `Local.with_ymd_and_hms` on the day of `now`. -/
def withHms (now : ℤ) (hour minute : ℕ) : Option ℤ :=
  if hour ≤ 23 ∧ minute ≤ 59 then some (now / dayLength * dayLength + hour * hourLength + minute * minuteLength) else none

/-- A time of today, or a second ago. -/
def today (now : ℤ) (hour minute : ℕ) : ℤ :=
  (withHms now hour minute).getD (now - 1000000000)

variable (cron : SimpleCron)

def next (now : ℤ) : ℤ :=
  match cron with
  | .day h m => if today now h m ≤ now then today now h m + dayLength else today now h m
  | .week d h m =>
    if today now h m ≤ now then
      -- in `u32`, which wraps around
      today now h m + ((7 - weekday now + d) % 0x100000000 : ℕ) * dayLength
    else today now h m
  | .hour m =>
    if today now (hourOf now) m ≤ now then today now (hourOf now) m + hourLength else today now (hourOf now) m

def asDuration : ℤ :=
  match cron with
  | .day _ _ => dayLength
  | .week _ _ _ => 7 * dayLength
  | .hour _ => hourLength

def timeToNext (now : ℤ) : ℤ :=
  if 0 ≤ cron.next now - now then cron.next now - now else cron.asDuration

end SimpleCron

/-! ## Parsing -/

namespace Cron

def ofDigits (value : List Char) : ℕ :=
  value.foldl (fun n ch => 10 * n + (ch.toNat - 48)) 0

/-- `str::parse::<u32>` -/
def parseU32 (value : List Char) : Option ℕ :=
  let digits := if value.head? = some '+' then value.tail else value
  if digits ≠ [] ∧ digits.all Char.isDigit ∧ ofDigits digits < 0x100000000 then some (ofDigits digits) else none

/-- The loop over the fields, from a position on. -/
def parseFields : ℕ → ℕ → ℕ → List (List Char) → Except String SimpleCron
  | _, _, _, [] => .error "Invalid cron key: parse cron expression."
  | pos, hour, minute, value :: fields =>
    if pos = 0 then
      match parseU32 value with
      | none => .error "Invalid cron key: failed to parse cron minute"
      | some minute =>
        if minute ≤ 59 then parseFields (pos + 1) hour minute fields
        else .error s!"Invalid cron key: failed to parse minute, invalid value: {minute}"
    else if pos = 1 then
      if value = [] then .error "Invalid cron key: failed to parse cron hour"
      else if value.head? = some '*' then .ok (.hour minute)
      else
        match parseU32 value with
        | none => .error "Invalid cron key: failed to parse cron hour"
        | some hour =>
          if hour ≤ 23 then parseFields (pos + 1) hour minute fields
          else .error s!"Invalid cron key: failed to parse hour, invalid value: {hour}"
    else if pos = 2 then
      if value = [] then .error "Invalid cron key: failed to parse cron weekday"
      else if value.head? = some '*' then .ok (.day hour minute)
      else
        match parseU32 value with
        | none => .error "Invalid cron key: failed to parse cron weekday"
        | some day =>
          -- the hour is looked at, not the weekday
          if 1 ≤ hour ∧ hour ≤ 7 then .ok (.week day hour minute)
          else .error s!"Invalid cron key: failed to parse weekday, invalid value: {hour}, range is 1 (Monday) to 7 (Sunday)."
    else parseFields (pos + 1) hour minute fields

end Cron

def SimpleCron.fromStr (value : List Char) : Except String SimpleCron :=
  Cron.parseFields 0 0 0 (value.splitOn ' ')

namespace SimpleCron

/-! ## When a schedule is due -/

variable (cron : SimpleCron)

/-- The beginning of a minute that the schedule names. -/
def Due (t : ℤ) : Prop :=
  t % minuteLength = 0 ∧
    match cron with
    | .day h m => hourOf t = h ∧ minuteOf t = m
    | .week d h m => weekday t = d ∧ hourOf t = h ∧ minuteOf t = m
    | .hour m => minuteOf t = m

def InRange : Prop :=
  match cron with
  | .day h m => h ≤ 23 ∧ m ≤ 59
  | .week _ h m => h ≤ 23 ∧ m ≤ 59
  | .hour m => m ≤ 59

/-- The times at which the next turn of the schedule is found: always, but for a weekly schedule only on its weekday
before its time, and after the time of the day only on its weekday or a later one of the week. -/
def Found (now : ℤ) : Prop :=
  match cron with
  | .week d h m => if today now h m ≤ now then 1 ≤ d ∧ d ≤ weekday now else weekday now = d
  | _ => True

instance (now : ℤ) : Decidable (cron.Found now) :=
  match cron with
  | .day _ _ => inferInstanceAs (Decidable True)
  | .week d h m =>
    inferInstanceAs (Decidable (if today now h m ≤ now then 1 ≤ d ∧ d ≤ weekday now else weekday now = d))
  | .hour _ => inferInstanceAs (Decidable True)

variable {cron} {now t : ℤ} {hour minute : ℕ}

theorem dueTime_iff (hminute : minute ≤ 59) :
    t % minuteLength = 0 ∧ hourOf t = hour ∧ minuteOf t = minute ↔
      t = t / dayLength * dayLength + hour * hourLength + minute * minuteLength := by
  unfold hourOf minuteOf minuteLength hourLength dayLength
  omega

theorem dueMinute_iff (hminute : minute ≤ 59) :
    t % minuteLength = 0 ∧ minuteOf t = minute ↔ t = t / hourLength * hourLength + minute * minuteLength := by
  unfold minuteOf minuteLength hourLength
  omega

theorem today_eq (hhour : hour ≤ 23) (hminute : minute ≤ 59) :
    today now hour minute = now / dayLength * dayLength + hour * hourLength + minute * minuteLength := by
  rw [today, withHms, if_pos ⟨hhour, hminute⟩, Option.getD_some]

theorem hourOf_le (now : ℤ) : hourOf now ≤ 23 := by
  unfold hourOf hourLength dayLength
  omega

theorem today_hourOf (hminute : minute ≤ 59) :
    today now (hourOf now) minute = now / hourLength * hourLength + minute * minuteLength := by
  rw [today_eq (hourOf_le now) hminute]
  unfold hourOf hourLength dayLength
  omega

theorem weekday_bounds (now : ℤ) : 1 ≤ weekday now ∧ weekday now ≤ 7 := by
  unfold weekday
  omega

theorem isLeast_day (now : ℤ) (hhour : hour ≤ 23) (hminute : minute ≤ 59) :
    IsLeast {t | now < t ∧ (SimpleCron.day hour minute).Due t} ((SimpleCron.day hour minute).next now) := by
  have hset (t : ℤ) : (SimpleCron.day hour minute).Due t ↔ _ := dueTime_iff hminute
  simp only [hset, next, today_eq hhour hminute, minuteLength, hourLength, dayLength]
  constructor
  · show _ < _ ∧ _
    split_ifs <;> omega
  · rintro t ⟨hnow, ht⟩
    split_ifs <;> omega

theorem isLeast_hour (now : ℤ) (hminute : minute ≤ 59) :
    IsLeast {t | now < t ∧ (SimpleCron.hour minute).Due t} ((SimpleCron.hour minute).next now) := by
  have hset (t : ℤ) : (SimpleCron.hour minute).Due t ↔ _ := dueMinute_iff hminute
  simp only [hset, next, today_hourOf hminute, minuteLength, hourLength]
  constructor
  · show _ < _ ∧ _
    split_ifs <;> omega
  · rintro t ⟨hnow, ht⟩
    split_ifs <;> omega

variable {day : ℕ} {text : List Char}

theorem due_week (hminute : minute ≤ 59) :
    (SimpleCron.week day hour minute).Due t ↔
      weekday t = day ∧ t = t / dayLength * dayLength + hour * hourLength + minute * minuteLength :=
  and_left_comm.trans (and_congr_right' (dueTime_iff hminute))

theorem div_today (hhour : hour ≤ 23) (hminute : minute ≤ 59) (k : ℤ) :
    (today now hour minute + k * dayLength) / dayLength = now / dayLength + k := by
  rw [today_eq hhour hminute]
  unfold minuteLength hourLength dayLength
  omega

theorem due_today (hhour : hour ≤ 23) (hminute : minute ≤ 59) (k : ℤ) :
    (SimpleCron.week day hour minute).Due (today now hour minute + k * dayLength) ↔
      ((now / dayLength + k + 3) % 7 + 1).toNat = day := by
  rw [due_week hminute, weekday, div_today hhour hminute]
  rw [today_eq hhour hminute, Int.add_mul]
  omega

theorem exists_today (now : ℤ) (hhour : hour ≤ 23) (hminute : minute ≤ 59)
    (h : (SimpleCron.week day hour minute).Due t) : ∃ k, t = today now hour minute + k * dayLength := by
  refine ⟨t / dayLength - now / dayLength, ?_⟩
  rw [due_week hminute] at h
  rw [today_eq hhour hminute, Int.sub_mul]
  omega

/-- **The next turn of a weekly schedule** is found at the times that `Found` says. -/
theorem isLeast_week_iff (hhour : hour ≤ 23) (hminute : minute ≤ 59) :
    IsLeast {t | now < t ∧ (SimpleCron.week day hour minute).Due t} ((SimpleCron.week day hour minute).next now) ↔
      (SimpleCron.week day hour minute).Found now := by
  have hweekday : weekday now = ((now / dayLength + 3) % 7 + 1).toNat := rfl
  have hsub : now - dayLength < today now hour minute ∧ today now hour minute < now + dayLength := by
    rw [today_eq hhour hminute]
    unfold minuteLength hourLength dayLength
    omega
  have hzero : today now hour minute = today now hour minute + 0 * dayLength := by rw [Int.zero_mul, Int.add_zero]
  unfold Found next
  dsimp only
  by_cases hpast : today now hour minute ≤ now
  · rw [if_pos hpast, if_pos hpast]
    constructor
    · rintro ⟨⟨-, hdue⟩, hleast⟩
      rw [due_today hhour hminute] at hdue
      by_contra hlater
      -- the weekday is still to come this week
      have hdue' : (SimpleCron.week day hour minute).Due
          (today now hour minute + ((day : ℤ) - weekday now) * dayLength) := by
        rw [due_today hhour hminute]
        omega
      have hnow : now < today now hour minute + ((day : ℤ) - weekday now) * dayLength := by
        have : 1 * dayLength ≤ ((day : ℤ) - weekday now) * dayLength := by
          unfold dayLength
          omega
        omega
      have hle := hleast ⟨hnow, hdue'⟩
      unfold dayLength at hle
      omega
    · rintro ⟨hpos, hle⟩
      refine ⟨⟨?_, ?_⟩, ?_⟩
      · unfold dayLength at hsub ⊢
        omega
      · rw [due_today hhour hminute]
        omega
      · rintro t ⟨hnow, hdue⟩
        obtain ⟨k, rfl⟩ := exists_today now hhour hminute hdue
        rw [due_today hhour hminute] at hdue
        have hk : 0 < k := by
          unfold dayLength at hnow
          omega
        unfold dayLength
        omega
  · rw [if_neg hpast, if_neg hpast]
    constructor
    · rintro ⟨⟨-, hdue⟩, -⟩
      rw [hzero, due_today hhour hminute, Int.add_zero] at hdue
      exact hdue
    · intro hday
      refine ⟨⟨by omega, ?_⟩, ?_⟩
      · rw [hzero, due_today hhour hminute, Int.add_zero]
        exact hday
      · rintro t ⟨hnow, hdue⟩
        obtain ⟨k, rfl⟩ := exists_today now hhour hminute hdue
        by_contra hlt
        have hk : k < 0 := by
          unfold dayLength at hlt
          omega
        unfold dayLength at hnow hsub
        omega

/-! ## Which schedules are accepted -/

/-- A field that is a number of some range. -/
def Field (least greatest : ℕ) (value : List Char) : Prop :=
  ∃ n, Cron.parseU32 value = some n ∧ least ≤ n ∧ n ≤ greatest

/-- A field that is left open. -/
def Open (value : List Char) : Prop :=
  value.head? = some '*'

/-- The fields of a weekly schedule. -/
def Weekly (text minute hour day : List Char) : Prop :=
  (∃ rest, text.splitOn ' ' = minute :: hour :: day :: rest) ∧ ¬ Open hour ∧ ¬ Open day

theorem Weekly.unique {m h d m' h' d' : List Char} (hw : Weekly text m h d)
    (hw' : Weekly text m' h' d') : m' = m ∧ h' = h ∧ d' = d := by
  obtain ⟨⟨rest, heq⟩, -⟩ := hw
  obtain ⟨⟨rest', heq'⟩, -⟩ := hw'
  rw [heq] at heq'
  simp only [List.cons.injEq] at heq'
  exact ⟨heq'.1.symm, heq'.2.1.symm, heq'.2.2.1.symm⟩

theorem parseFields_eq_ok {fields : List (List Char)} (h : Cron.parseFields 0 0 0 fields = .ok cron) :
    ∃ m hr rest minute, fields = m :: hr :: rest ∧ Cron.parseU32 m = some minute ∧ minute ≤ 59 ∧
      ((Open hr ∧ cron = .hour minute) ∨
        ∃ d more hour, ¬ Open hr ∧ rest = d :: more ∧ Cron.parseU32 hr = some hour ∧ hour ≤ 23 ∧
          ((Open d ∧ cron = .day hour minute) ∨
            ∃ day, ¬ Open d ∧ Cron.parseU32 d = some day ∧ 1 ≤ hour ∧ hour ≤ 7 ∧ cron = .week day hour minute)) := by
  match fields with
  | [] => cases h
  | m :: fields =>
    rw [Cron.parseFields, if_pos rfl] at h
    split at h
    · cases h
    · rename_i minute hm
      split_ifs at h with hminute
      match fields with
      | [] => cases h
      | hr :: rest =>
        refine ⟨m, hr, rest, minute, rfl, hm, hminute, ?_⟩
        rw [Cron.parseFields, if_neg (by decide), if_pos rfl] at h
        split_ifs at h with hempty hopen
        · exact .inl ⟨hopen, (Except.ok.inj h).symm⟩
        · split at h
          · cases h
          · rename_i hour hhr
            split_ifs at h with hhour
            match rest with
            | [] => cases h
            | d :: more =>
              refine .inr ⟨d, more, hour, hopen, rfl, hhr, hhour, ?_⟩
              rw [Cron.parseFields, if_neg (by decide), if_neg (by decide), if_pos rfl] at h
              split_ifs at h with hempty' hopen' hday
              · exact .inl ⟨hopen', (Except.ok.inj h).symm⟩
              · split at h
                · cases h
                · rename_i day hd
                  exact .inr ⟨day, hopen', hd, hday.1, hday.2, (Except.ok.inj h).symm⟩
              · split at h <;> cases h

theorem inRange_of_fromStr (h : fromStr text = .ok cron) : cron.InRange := by
  obtain ⟨m, hr, rest, minute, -, -, hminute, ⟨-, rfl⟩ | ⟨d, more, hour, -, -, -, hhour, ⟨-, rfl⟩ | ⟨day, -, -, -, -, rfl⟩⟩⟩ :=
    parseFields_eq_ok h
  · exact hminute
  · exact ⟨hhour, hminute⟩
  · exact ⟨hhour, hminute⟩

theorem exists_week_iff : (∃ day hour minute, fromStr text = .ok (.week day hour minute)) ↔
    ∃ m h d, Weekly text m h d ∧ Field 0 59 m ∧ Field 1 7 h ∧ ∃ n, Cron.parseU32 d = some n := by
  constructor
  · rintro ⟨day, hour, minute, h⟩
    obtain ⟨m, hr, rest, minute, hfields, hm, hminute, ⟨-, heq⟩ |
      ⟨d, more, hour, hopen, rfl, hhr, hhour, ⟨-, heq⟩ | ⟨day, hopen', hd, hlow, hhigh, heq⟩⟩⟩ := parseFields_eq_ok h
    · cases heq
    · cases heq
    · exact ⟨m, hr, d, ⟨⟨more, hfields⟩, hopen, hopen'⟩, ⟨minute, hm, Nat.zero_le _, hminute⟩,
        ⟨hour, hhr, hlow, hhigh⟩, day, hd⟩
  · rintro ⟨m, h, d, ⟨⟨rest, hfields⟩, hopen, hopen'⟩, ⟨minute, hm, -, hminute⟩, ⟨hour, hh, hlow, hhigh⟩, day, hd⟩
    have hh' : h ≠ [] := by
      rintro rfl
      cases hh
    have hd' : d ≠ [] := by
      rintro rfl
      cases hd
    refine ⟨day, hour, minute, ?_⟩
    unfold Open at hopen hopen'
    simp [fromStr, hfields, Cron.parseFields, hm, hh, hd, hminute, hopen, hopen', hh', hd', hlow, hhigh,
      show hour ≤ 23 by omega]

/-- The weekly schedules that should be accepted. -/
def WeeklyInRange (text : List Char) : Prop :=
  ∃ m h d, Weekly text m h d ∧ Field 0 59 m ∧ Field 0 23 h ∧ Field 1 7 d

/-- The texts that are judged as they should be: of a weekly schedule with minute and hour in range, the hour is one of
1 to 7 if and only if the weekday, a number, is. -/
def Judged (text : List Char) : Prop :=
  ∀ m h d, Weekly text m h d → Field 0 59 m → Field 0 23 h → ∀ n, Cron.parseU32 d = some n →
    (Field 1 7 h ↔ 1 ≤ n ∧ n ≤ 7)

theorem Field.mono {a b a' b' : ℕ} {value : List Char} (h : Field a b value) (ha : a' ≤ a) (hb : b ≤ b') :
    Field a' b' value := by
  obtain ⟨n, hn, hlow, hhigh⟩ := h
  exact ⟨n, hn, ha.trans hlow, hhigh.trans hb⟩

theorem weekly_iff (text : List Char) :
    ((∃ day hour minute, fromStr text = .ok (.week day hour minute)) ↔ WeeklyInRange text) ↔ Judged text := by
  rw [exists_week_iff]
  constructor
  · intro hiff m h d hw hm hh n hn
    constructor
    · intro hhour
      obtain ⟨m', h', d', hw', -, -, n', hn', hday⟩ := hiff.1 ⟨m, h, d, hw, hm, hhour, n, hn⟩
      obtain ⟨-, -, rfl⟩ := hw.unique hw'
      obtain rfl := Option.some.inj (hn.symm.trans hn')
      exact hday
    · intro hday
      obtain ⟨m', h', d', hw', -, hhour, -⟩ := hiff.2 ⟨m, h, d, hw, hm, hh, n, hn, hday⟩
      obtain ⟨-, rfl, -⟩ := hw.unique hw'
      exact hhour
  · intro hjudged
    constructor
    · rintro ⟨m, h, d, hw, hm, hh, n, hn⟩
      have hhour := hh.mono (Nat.zero_le 1) (show 7 ≤ 23 by decide)
      exact ⟨m, h, d, hw, hm, hhour, n, hn, (hjudged m h d hw hm hhour n hn).1 hh⟩
    · rintro ⟨m, h, d, hw, hm, hh, n, hn, hday⟩
      exact ⟨m, h, d, hw, hm, (hjudged m h d hw hm hh n hn).2 hday, n, hn⟩

theorem lt_next_week (hhour : hour ≤ 23) (hminute : minute ≤ 59) (hday : 1 ≤ day ∧ day ≤ 7)
    (now : ℤ) : now < (SimpleCron.week day hour minute).next now := by
  simp only [next, today_eq hhour hminute, minuteLength, hourLength, dayLength]
  split_ifs <;> omega

theorem not_due_week (hday : ¬ (1 ≤ day ∧ day ≤ 7))
    (t : ℤ) : ¬ (SimpleCron.week day hour minute).Due t := by
  rintro ⟨-, h, -⟩
  exact hday (h ▸ weekday_bounds t)

theorem timeToNext_eq (h : now < cron.next now) : now + cron.timeToNext now = cron.next now := by
  rw [timeToNext]
  omega

/-- **When the next turn of a schedule is waited for.** -/
theorem isLeast_iff (h : cron.InRange) (now : ℤ) :
    IsLeast {t | now < t ∧ cron.Due t} (now + cron.timeToNext now) ↔ cron.Found now := by
  match cron with
  | .day hr m =>
    have hleast := isLeast_day now h.1 h.2
    rw [timeToNext_eq hleast.1.1]
    exact iff_of_true hleast trivial
  | .hour m =>
    have hleast := isLeast_hour now h
    rw [timeToNext_eq hleast.1.1]
    exact iff_of_true hleast trivial
  | .week d hr m =>
    by_cases hday : 1 ≤ d ∧ d ≤ 7
    · rw [timeToNext_eq (lt_next_week h.1 h.2 hday now)]
      exact isLeast_week_iff h.1 h.2
    · -- no moment has such a weekday
      refine iff_of_false (fun hleast => not_due_week hday _ hleast.1.2) fun hfound => hday ?_
      obtain ⟨hlow, hhigh⟩ := weekday_bounds now
      unfold Found at hfound
      dsimp only at hfound
      split_ifs at hfound <;> omega

/-- **Schedules:** an accepted one waits for its next turn at the times that `Found` says, and the weekly ones that
should be are accepted among the texts that `Judged` says. -/
theorem schedules_iff (text : List Char) (now : ℤ) :
    (∀ cron, fromStr text = .ok cron →
      (0 < cron.timeToNext now ∧ IsLeast {t | now < t ∧ cron.Due t} (now + cron.timeToNext now) ↔ cron.Found now)) ∧
    (((∃ day hour minute, fromStr text = .ok (.week day hour minute)) ↔ WeeklyInRange text) ↔ Judged text) := by
  refine ⟨fun cron h => ?_, weekly_iff text⟩
  rw [← isLeast_iff (inRange_of_fromStr h) now, and_iff_right_iff_imp]
  intro hleast
  have := hleast.1.1
  omega

/-- `0 3 1` at noon on a Tuesday, 5 January 2027. -/
theorem schedules_tuesday :
    (SimpleCron.week 1 3 0).Found 1799150400000000000 ∧ 0 < (SimpleCron.week 1 3 0).timeToNext 1799150400000000000 :=
  have h := (schedules_iff "0 3 1".toList 1799150400000000000).1 (.week 1 3 0) rfl
  have hfound : (SimpleCron.week 1 3 0).Found 1799150400000000000 := by decide
  ⟨hfound, (h.2 hfound).1⟩

/-- At noon on that day `0 3 5` waits ten days, not three, and `0 5 9` and `0 12 1` are judged by their hours. -/
theorem not_schedules :
    fromStr "0 3 5".toList = .ok (.week 5 3 0) ∧
    ¬ IsLeast {t | 1799150400000000000 < t ∧ (SimpleCron.week 5 3 0).Due t}
      (1799150400000000000 + (SimpleCron.week 5 3 0).timeToNext 1799150400000000000) ∧
    fromStr "0 5 9".toList = .ok (.week 9 5 0) ∧ ∀ cron, fromStr "0 12 1".toList ≠ .ok cron := by
  refine ⟨rfl, ?_, rfl, ?_⟩
  · intro h
    -- the Friday of the same week
    have hfriday : (1799377200000000000 : ℤ) ∈ {t | 1799150400000000000 < t ∧ (SimpleCron.week 5 3 0).Due t} := by
      refine ⟨by decide, ?_, ?_⟩ <;> decide
    exact absurd (h.2 hfriday) (by decide)
  · intro cron h
    cases h

end SimpleCron

end MailServer.Utils
