import MailServer.Store.Query.Kinds

/-!
# The net effect of a history

A history is a list of batches, each logged and serialized as one entry; reading the entries back in
order gives the changes since its beginning.

* `net`: what a history amounts to for one id, by whether the id is there before and after it.
* `replay_eq_net_iff`: what is read is the net effect, unless an id that was there comes back after it
  was gone from one batch to the next, or a container goes whose only changes were property changes.
-/

namespace MailServer.Store.Query

open MailServer.Lib MailServer.Utils MailServer.Store.Write List Changes

/-! ## Histories of one id -/

def Kind.after (present : Bool) : Kind → Bool
  | insert => true
  | delete => false
  | _ => present

/-- Whether the id is there after some events. -/
def presentAfter (present : Bool) (l : List Kind) : Bool := l.foldl Kind.after present

theorem presentAfter_append (present : Bool) (l m : List Kind) :
    presentAfter present (l ++ m) = presentAfter (presentAfter present l) m := by
  simp [presentAfter]

/-- An id is inserted only while absent, updated and deleted only while present. -/
def Alternates : Bool → List Kind → Prop
  | _, [] => True
  | present, e :: l => present = decide (e ≠ .insert) ∧ Alternates (e.after present) l

instance decidableAlternates : (present : Bool) → (l : List Kind) → Decidable (Alternates present l)
  | _, [] => inferInstanceAs (Decidable True)
  | present, e :: l =>
    have := decidableAlternates (e.after present) l
    inferInstanceAs (Decidable (_ ∧ _))

variable {present : Bool} {l : List Kind} {bs : List (List Kind)} {Q : Kind → Bool}

theorem alternates_append {m : List Kind} :
    Alternates present (l ++ m) ↔ Alternates present l ∧ Alternates (presentAfter present l) m := by
  induction l generalizing present with
  | nil => simp [Alternates, presentAfter]
  | cons e l ih => simp [Alternates, ih, presentAfter, and_assoc]

/-- What the events of an id amount to: at most one change. -/
def net (present : Bool) (l : List Kind) : Option Kind :=
  match present, presentAfter present l with
  | false, false => none
  | false, true => some .insert
  | true, false => some .delete
  | true, true =>
    if l = [] then none else if l.any (· ≠ .property) then some .update else some .property

/-! ## The bits of one batch -/

/-- The bits that the events of one batch leave, by presence before and after. -/
def Summary (present : Bool) (l : List Kind) (b : Bits) : Prop :=
  match present, presentAfter present l with
  | false, false => if l = [] then b = ⟨false, false, false, false⟩ else b = ⟨true, false, false, true⟩
  | false, true => b.insert = true ∧ b.delete = false
  | true, false => b = ⟨false, false, false, true⟩
  | true, true =>
    b.insert = false ∧ b.delete = false ∧ b.update = l.any (· ≠ .property) ∧
      (b.update = false → b.property = !l.isEmpty)

def batchBits (l : List Kind) : Bits := l.foldl Bits.step ⟨false, false, false, false⟩

theorem summary_batchBits (h : Alternates present l) : Summary present l (batchBits l) := by
  induction l using List.reverseRecOn with
  | nil => cases present <;> simp [Summary, presentAfter, batchBits]
  | append_singleton l e ih =>
    obtain ⟨hl, hpresent, -⟩ := alternates_append.1 h
    have hb := ih hl
    have hstep : batchBits (l ++ [e]) = (batchBits l).step e := by simp [batchBits]
    have hafter : presentAfter present (l ++ [e]) = e.after (presentAfter present l) := by
      simp [presentAfter]
    rw [hstep]
    unfold Summary at hb ⊢
    rw [hafter, hpresent]
    rw [hpresent] at hb
    cases present
    · cases e
      case insert =>
        simp only [ne_eq, not_true_eq_false, decide_false] at hb
        split_ifs at hb <;> simp [Kind.after, hb, Bits.step]
      all_goals
        obtain ⟨hinsert, hdelete⟩ : (batchBits l).insert = true ∧ (batchBits l).delete = false := hb
        simp [Kind.after, Bits.step, hinsert, hdelete]
    · cases e
      case insert =>
        have hb : batchBits l = ⟨false, false, false, true⟩ := hb
        simp [Kind.after, Bits.step, hb]
      all_goals
        obtain ⟨hinsert, hdelete, hupdate, hproperty⟩ : (batchBits l).insert = false ∧
          (batchBits l).delete = false ∧ (batchBits l).update = l.any (· ≠ .property) ∧
          ((batchBits l).update = false → (batchBits l).property = !l.isEmpty) := hb
        simp [Kind.after, Bits.step, hinsert, hdelete, hupdate]

/-! ## The run of one id -/

/-- The kinds read after the entries of some batches. -/
def run (bs : List (List Kind)) : List Kind := bs.foldl (fun s l => (batchBits l).entry s) []

theorem run_concat (bs : List (List Kind)) (l : List Kind) :
    run (bs ++ [l]) = (batchBits l).entry (run bs) := by
  simp [run]

theorem flatten_concat (bs : List (List Kind)) (l : List Kind) :
    (bs ++ [l]).flatten = bs.flatten ++ l := by
  simp

/-- **An id that was not there** is read as its net effect. -/
theorem run_of_absent (h : Alternates false bs.flatten) :
    run bs = (net false bs.flatten).toList := by
  induction bs using List.reverseRecOn with
  | nil => rfl
  | append_singleton bs l ih =>
    rw [flatten_concat] at h ⊢
    obtain ⟨hbs, hl⟩ := alternates_append.1 h
    have hsummary := summary_batchBits hl
    rw [run_concat, ih hbs]
    unfold net
    rw [presentAfter_append]
    unfold Summary at hsummary
    cases hp : presentAfter false bs.flatten <;> cases hq : presentAfter (presentAfter false bs.flatten) l <;>
      rw [hp] at hq hsummary <;> simp only [hq] at hsummary ⊢
    · split_ifs at hsummary <;> rw [hsummary] <;> rfl
    · obtain ⟨hinsert, hdelete⟩ := hsummary
      rcases hb : batchBits l with ⟨i, u, p, d⟩
      simp only [hb] at hinsert hdelete
      subst hinsert hdelete
      cases u <;> cases p <;> rfl
    · rw [hsummary]
      rfl
    · obtain ⟨hinsert, hdelete, -, -⟩ := hsummary
      rcases hb : batchBits l with ⟨i, u, p, d⟩
      simp only [hb] at hinsert hdelete
      subst hinsert hdelete
      cases u <;> cases p <;> rfl

/-- Gone at the end of some batch. -/
def Absent (bs : List (List Kind)) : Prop :=
  ∃ before, before <+: bs ∧ presentAfter true before.flatten = false

/-- Gone at the end of a batch before which only properties had changed. -/
def DeletedAfterProperty (bs : List (List Kind)) : Prop :=
  ∃ before l, before ++ [l] <+: bs ∧ before.flatten ≠ [] ∧ before.flatten.any (· ≠ .property) = false ∧
    presentAfter true (before ++ [l]).flatten = false

theorem absent_concat :
    Absent (bs ++ [l]) ↔ Absent bs ∨ presentAfter true (bs.flatten ++ l) = false := by
  constructor
  · rintro ⟨before, hbefore, hgone⟩
    rcases prefix_concat_iff.mp hbefore with rfl | hbefore
    · exact .inr (flatten_concat bs l ▸ hgone)
    · exact .inl ⟨before, hbefore, hgone⟩
  · rintro (⟨before, hbefore, hgone⟩ | hgone)
    · exact ⟨before, hbefore.trans (prefix_append _ _), hgone⟩
    · exact ⟨_, prefix_rfl, (flatten_concat bs l).symm ▸ hgone⟩

theorem deletedAfterProperty_concat :
    DeletedAfterProperty (bs ++ [l]) ↔ DeletedAfterProperty bs ∨
      (bs.flatten ≠ [] ∧ bs.flatten.any (· ≠ .property) = false ∧
        presentAfter true (bs.flatten ++ l) = false) := by
  constructor
  · rintro ⟨before, m, hbefore, hne, hany, hgone⟩
    rcases prefix_concat_iff.mp hbefore with heq | hbefore
    · obtain ⟨rfl, hm⟩ := append_inj' heq rfl
      obtain rfl := singleton_injective hm
      exact .inr ⟨hne, hany, flatten_concat before m ▸ hgone⟩
    · exact .inl ⟨before, m, hbefore, hne, hany, hgone⟩
  · rintro (⟨before, m, hbefore, hrest⟩ | ⟨hne, hany, hgone⟩)
    · exact ⟨before, m, hbefore.trans (prefix_append _ _), hrest⟩
    · exact ⟨bs, l, prefix_rfl, hne, hany, (flatten_concat bs l).symm ▸ hgone⟩

theorem DeletedAfterProperty.absent (h : DeletedAfterProperty bs) : Absent bs := by
  obtain ⟨before, l, hbefore, -, -, hgone⟩ := h
  exact ⟨_, hbefore, hgone⟩

theorem presentAfter_property (h : l.any (· ≠ .property) = false) :
    presentAfter present l = present := by
  induction l with
  | nil => rfl
  | cons e l ih =>
    rw [any_cons, Bool.or_eq_false_iff, decide_eq_false_iff_not, not_not] at h
    obtain ⟨rfl, hl⟩ := h
    exact ih hl

theorem not_absent_of_property (h : bs.flatten.any (· ≠ .property) = false) : ¬ Absent bs := by
  rintro ⟨before, ⟨after, rfl⟩, hgone⟩
  rw [flatten_append, any_append, Bool.or_eq_false_iff] at h
  rw [presentAfter_property h.1] at hgone
  cases hgone

/-- The changes that are no inserts. -/
def settled (s : List Kind) : ℕ := s.countP (· ≠ .insert)

theorem settled_eraseP_add_one {s : List Kind} {x : Kind} (h : s.find? Q = some x)
    (hx : x ≠ .insert) : settled (s.eraseP Q) + 1 = settled s := by
  induction s with
  | nil => cases h
  | cons y s ih =>
    by_cases hy : Q y
    · rw [find?_cons_of_pos hy] at h
      obtain rfl := Option.some.inj h
      simp [settled, hy, hx]
    · rw [find?_cons_of_neg hy] at h
      have := ih h
      simp only [settled, eraseP_cons_of_neg hy, countP_cons] at this ⊢
      omega

theorem settled_eraseP_insert {s : List Kind} (h : s.find? Q = some .insert) :
    settled (s.eraseP Q) = settled s := by
  induction s with
  | nil => cases h
  | cons y s ih =>
    by_cases hy : Q y
    · rw [find?_cons_of_pos hy] at h
      obtain rfl := Option.some.inj h
      simp [settled, hy]
    · rw [find?_cons_of_neg hy] at h
      have := ih h
      simp only [settled, eraseP_cons_of_neg hy, countP_cons] at this ⊢
      omega

theorem settled_concat (s : List Kind) (x : Kind) :
    settled (s ++ [x]) = settled s + if x = .insert then 0 else 1 := by
  cases x <;> simp [settled]

theorem settled_concat_of_ne (s : List Kind) {x : Kind} (hx : x ≠ .insert) :
    settled (s ++ [x]) = settled s + 1 := by
  rw [settled_concat, if_neg hx]

theorem settled_updateKinds (b : Bool) (s : List Kind) : settled s ≤ settled (updateKinds b s) := by
  have hchange : (if b then Kind.property else Kind.update) ≠ .insert := by cases b <;> decide
  unfold updateKinds
  rcases hf : s.find? Kind.isLive with _ | x
  · rw [settled_concat_of_ne _ hchange]
    exact Nat.le_succ _
  · cases x
    case insert => exact le_rfl
    case update =>
      rw [settled_concat_of_ne _ (by decide)]
      exact (settled_eraseP_add_one hf (by decide)).ge
    all_goals
      rw [settled_concat_of_ne _ hchange]
      exact (settled_eraseP_add_one hf (by decide)).ge

theorem settled_deleteKinds (s : List Kind) : settled s ≤ settled (deleteKinds s) := by
  unfold deleteKinds
  rcases hf : s.find? Kind.isFull with _ | x
  · rw [settled_concat_of_ne _ (by decide)]
    exact Nat.le_succ _
  · cases x
    case insert => exact (settled_eraseP_insert hf).ge
    all_goals
      rw [settled_concat_of_ne _ (by decide)]
      exact (settled_eraseP_add_one hf (by decide)).ge

theorem settled_ite {f : List Kind → List Kind} (hf : ∀ s, settled s ≤ settled (f s)) (b : Bool)
    (s : List Kind) : settled s ≤ settled (if b then f s else s) := by
  split_ifs
  · exact hf s
  · exact le_rfl

theorem settled_entry (b : Bits) (s : List Kind) : settled s ≤ settled (b.entry s) := by
  have hinsert (s : List Kind) : settled s ≤ settled (s ++ [.insert]) := (settled_concat s .insert).ge
  calc settled s ≤ _ := settled_ite hinsert b.insert s
    _ ≤ _ := settled_ite (settled_updateKinds false) b.update _
    _ ≤ _ := settled_ite (settled_updateKinds true) b.property _
    _ ≤ settled (b.entry s) := settled_ite settled_deleteKinds b.delete _

theorem entry_afterAbsent {b : Bits} (h : Summary present l b) :
    b.entry (if present then [.delete, .insert] else [.delete]) =
      if presentAfter present l then [.delete, .insert] else [.delete] := by
  rcases b with ⟨i, u, p, d⟩
  unfold Summary at h
  cases present <;> cases hafter : presentAfter _ l <;> simp only [hafter] at h
  · split_ifs at h <;> cases h <;> rfl
  · obtain ⟨hinsert, hdelete⟩ := h
    subst hinsert hdelete
    cases u <;> cases p <;> rfl
  · cases h
    rfl
  · obtain ⟨hinsert, hdelete, -, -⟩ := h
    subst hinsert hdelete
    cases u <;> cases p <;> rfl

theorem net_of_present (h : presentAfter true l = true) :
    net true l =
      if l = [] then none else if l.any (· ≠ .property) then some .update else some .property := by
  unfold net
  simp only [h]

theorem entry_net {m : List Kind} {b : Bits} (h : Summary true m b)
    (hl : presentAfter true l = true) (hm : presentAfter true m = true) :
    b.entry (net true l).toList = (net true (l ++ m)).toList := by
  have hlm : presentAfter true (l ++ m) = true := by rw [presentAfter_append, hl, hm]
  rcases b with ⟨i, u, p, d⟩
  unfold Summary at h
  simp only [hm] at h
  obtain ⟨hinsert, hdelete, hupdate, hproperty⟩ := h
  subst hinsert hdelete hupdate
  rw [net_of_present hl, net_of_present hlm]
  rcases m with _ | ⟨e, m⟩
  · have hp : p = false := hproperty rfl
    subst hp
    rw [append_nil]
    rfl
  · rw [any_append]
    cases hany : (e :: m).any (· ≠ .property)
    · -- only properties
      have hp : p = true := hproperty hany
      subst hp
      rcases l with _ | ⟨e', l⟩
      · rfl
      · cases (e' :: l).any (· ≠ .property) <;> rfl
    · rcases l with _ | ⟨e', l⟩
      · cases p <;> rfl
      · cases (e' :: l).any (· ≠ .property) <;> cases p <;> rfl

/-- What is read of an id that was there. -/
structure RunOf (bs : List (List Kind)) (s : List Kind) : Prop where
  afterProperty : DeletedAfterProperty bs → 2 ≤ settled s
  afterAbsent : ¬ DeletedAfterProperty bs → Absent bs →
    s = if presentAfter true bs.flatten then [.delete, .insert] else [.delete]
  always : ¬ Absent bs → s = (net true bs.flatten).toList

/-- **The run of an id that was there**. -/
theorem runOf_run (h : Alternates true bs.flatten) : RunOf bs (run bs) := by
  induction bs using List.reverseRecOn with
  | nil =>
    have habsent : ¬ Absent [] := by
      rintro ⟨before, hbefore, hgone⟩
      obtain rfl := prefix_nil.mp hbefore
      cases hgone
    exact ⟨fun hp => absurd hp.absent habsent, fun _ ha => absurd ha habsent, fun _ => rfl⟩
  | append_singleton bs l ih =>
    rw [flatten_concat] at h
    obtain ⟨hbs, hl⟩ := alternates_append.1 h
    have hsummary := summary_batchBits hl
    have ih := ih hbs
    have hstep := presentAfter_append true bs.flatten l
    rw [run_concat]
    by_cases hproperty : DeletedAfterProperty bs
    · -- two changes that are no inserts stay two
      have hold := hproperty.absent
      refine ⟨fun _ => (ih.afterProperty hproperty).trans (settled_entry _ _), ?_, ?_⟩
      · exact fun hnot => absurd (deletedAfterProperty_concat.2 (.inl hproperty)) hnot
      · exact fun hnot => absurd (absent_concat.2 (.inl hold)) hnot
    by_cases habsent : Absent bs
    · have hnew : ¬ DeletedAfterProperty (bs ++ [l]) := by
        rw [deletedAfterProperty_concat]
        rintro (hold | ⟨-, hany, -⟩)
        · exact hproperty hold
        · exact not_absent_of_property hany habsent
      refine ⟨fun hnot => absurd hnot hnew, fun _ _ => ?_, fun hnot =>
        absurd (absent_concat.2 (.inl habsent)) hnot⟩
      rw [ih.afterAbsent hproperty habsent, flatten_concat, hstep]
      exact entry_afterAbsent hsummary
    · have hpresent : presentAfter true bs.flatten = true := by
        by_contra hgone
        exact habsent ⟨bs, prefix_rfl, Bool.eq_false_iff.mpr hgone⟩
      rw [hpresent] at hsummary hstep
      rw [ih.always habsent]
      cases hafter : presentAfter true l
      · -- the id goes
        rw [hafter] at hstep
        have hbits : batchBits l = ⟨false, false, false, true⟩ := by
          unfold Summary at hsummary
          simpa only [hafter] using hsummary
        rw [hbits, net_of_present hpresent]
        refine ⟨fun hnew => ?_, fun hnot _ => ?_, fun hnot => ?_⟩
        · rw [deletedAfterProperty_concat, or_iff_right hproperty] at hnew
          rw [if_neg hnew.1, if_neg (Bool.eq_false_iff.mp hnew.2.1)]
          exact le_rfl
        · rw [deletedAfterProperty_concat, or_iff_right hproperty] at hnot
          rw [flatten_concat, hstep, if_neg Bool.false_ne_true]
          split_ifs with hnil hany
          · rfl
          · rfl
          · exact absurd ⟨hnil, Bool.eq_false_iff.mpr hany, hstep⟩ hnot
        · exact absurd (absent_concat.2 (.inr hstep)) hnot
      · rw [hafter] at hstep
        have hnot : ¬ Absent (bs ++ [l]) := by
          rw [absent_concat, or_iff_right habsent, hstep]
          exact Bool.true_eq_false_eq_False
        refine ⟨fun hnew => absurd hnew.absent hnot, fun _ hnew => absurd hnew hnot, fun _ => ?_⟩
        rw [flatten_concat]
        exact entry_net hsummary hpresent hafter

theorem RunOf.settled_le_one {o : Option Kind} : settled o.toList ≤ 1 := by
  rcases o with _ | x
  · exact Nat.zero_le _
  · cases x <;> decide

/-- Gone at the end of some batch, and there at the end. -/
def Recreated (bs : List (List Kind)) : Prop := Absent bs ∧ presentAfter true bs.flatten = true

theorem run_eq_net_iff (h : Alternates true bs.flatten) :
    run bs = (net true bs.flatten).toList ↔ ¬ DeletedAfterProperty bs ∧ ¬ Recreated bs := by
  have hrun := runOf_run h
  by_cases hproperty : DeletedAfterProperty bs
  · refine iff_of_false (fun heq => ?_) fun hnot => hnot.1 hproperty
    have htwo := hrun.afterProperty hproperty
    have hone : settled (run bs) ≤ 1 := heq ▸ RunOf.settled_le_one
    omega
  by_cases habsent : Absent bs
  · rw [hrun.afterAbsent hproperty habsent]
    cases hafter : presentAfter true bs.flatten
    · refine iff_of_true ?_ ⟨hproperty, fun hback => ?_⟩
      · unfold net
        simp only [hafter]
        rfl
      · exact Bool.false_ne_true (hafter.symm.trans hback.2)
    · refine iff_of_false (fun heq => ?_) fun hnot => hnot.2 ⟨habsent, hafter⟩
      cases hnet : net true bs.flatten
      all_goals
        rw [hnet] at heq
        cases heq
  · refine iff_of_true (hrun.always habsent) ⟨hproperty, fun hback => habsent hback.1⟩

/-! ## The log -/

/-- A batch as it is logged: its changes, and the orders in which its sets are written. -/
structure Entry where
  log : List LogChange
  containers : HashOrder UInt32
  items : HashOrder UInt64
  /-- a list in memory -/
  short : log.length < 2 ^ 64

namespace Entry

def bytes (e : Entry) : List UInt8 := (ofLog e.log).serialize e.containers e.items

end Entry

/-- The changes read from the entries of a log. -/
def replay (es : List Entry) : Option Changes :=
  es.foldlM (fun q e => (q.deserialize e.bytes).map Prod.fst) default

/-- The batches seen from one key. -/
def batches (k : Key) (es : List Entry) : List (List Kind) := es.map fun e => events k e.log

/-- A history, with the ids that were there before it. -/
structure History (present : Key → Bool) where
  entries : List Entry
  alternates : ∀ k, Alternates (present k) (batches k entries).flatten

theorem card_log_le (c : Write.Changes) (r : LogChange) :
    (c.log r).itemInserts.card ≤ c.itemInserts.card + 1 ∧
      (c.log r).itemUpdates.card ≤ c.itemUpdates.card + 1 ∧
      (c.log r).itemDeletes.card ≤ c.itemDeletes.card + 1 := by
  cases r
  case insertItem id =>
    simp only [Changes.log, Changes.insertItem]
    split_ifs
    · exact ⟨Nat.le_succ _, Finset.card_insert_le _ _, (Finset.card_erase_le).trans (Nat.le_succ _)⟩
    · exact ⟨Finset.card_insert_le _ _, Nat.le_succ _, Nat.le_succ _⟩
  case updateItem id => exact ⟨Nat.le_succ _, Finset.card_insert_le _ _, Nat.le_succ _⟩
  case deleteItem id =>
    exact ⟨Nat.le_succ _, (Finset.card_erase_le).trans (Nat.le_succ _), Finset.card_insert_le _ _⟩
  case insertContainer id =>
    simp only [Changes.log, Changes.insertContainer]
    split_ifs <;> exact ⟨Nat.le_succ _, Nat.le_succ _, Nat.le_succ _⟩
  all_goals exact ⟨Nat.le_succ _, Nat.le_succ _, Nat.le_succ _⟩

theorem card_ofLog_le (l : List LogChange) :
    (ofLog l).itemInserts.card ≤ l.length ∧ (ofLog l).itemUpdates.card ≤ l.length ∧
      (ofLog l).itemDeletes.card ≤ l.length := by
  induction l using List.reverseRecOn with
  | nil => exact ⟨le_rfl, le_rfl, le_rfl⟩
  | append_singleton l r ih =>
    obtain ⟨hinsert, hupdate, hdelete⟩ := card_log_le (ofLog l) r
    rw [ofLog_concat, length_append, length_singleton]
    omega

theorem Entry.fits (e : Entry) : Fits (ofLog e.log) := by
  obtain ⟨hinsert, hupdate, hdelete⟩ := card_ofLog_le e.log
  have := e.short
  exact ⟨by omega, by omega, by omega⟩

theorem replay_eq (es : List Entry) :
    replay es = some { (default : Changes) with
      changes := es.foldl (fun l e => absorb e.containers e.items l (ofLog e.log)) [] } := by
  induction es using List.reverseRecOn with
  | nil => rfl
  | append_singleton es e ih =>
    unfold replay at ih ⊢
    rw [foldlM_append, ih, foldl_append]
    simp only [foldlM_cons, Entry.bytes,
      deserialize_serialize e.containers e.items _ e.fits]
    rfl

theorem kinds_replay (k : Key) (es : List Entry) :
    kinds k (es.foldl (fun l e => absorb e.containers e.items l (ofLog e.log)) []) =
      run (batches k es) := by
  induction es using List.reverseRecOn with
  | nil => rfl
  | append_singleton es e ih =>
    have hbatches : batches k (es ++ [e]) = batches k es ++ [events k e.log] := map_append
    rw [foldl_concat, kinds_absorb, ih, hbatches, run_concat, bits_ofLog]
    rfl

/-- **What is read is the net effect** of the history, unless an id that was there comes back after it
was gone at the end of a batch, or goes after changes of its properties only. -/
theorem replay_eq_net_iff (present : Key → Bool) (h : History present) :
    (∃ q, replay h.entries = some q ∧
      ∀ k, kinds k q.changes = (net (present k) (batches k h.entries).flatten).toList) ↔
      ∀ k, present k = true →
        ¬ DeletedAfterProperty (batches k h.entries) ∧ ¬ Recreated (batches k h.entries) := by
  have hkey (k : Key) :
      run (batches k h.entries) = (net (present k) (batches k h.entries).flatten).toList ↔
        (present k = true →
          ¬ DeletedAfterProperty (batches k h.entries) ∧ ¬ Recreated (batches k h.entries)) := by
    have halternates := h.alternates k
    cases hp : present k
    · rw [hp] at halternates
      exact iff_of_true (run_of_absent halternates) fun hcontra => absurd hcontra Bool.false_ne_true
    · rw [hp] at halternates
      rw [run_eq_net_iff halternates]
      exact ⟨fun hok _ => hok, fun hok => hok rfl⟩
  rw [replay_eq]
  constructor
  · rintro ⟨q, hq, hkinds⟩ k
    obtain rfl := Option.some.inj hq
    exact (hkey k).mp ((kinds_replay k h.entries).symm.trans (hkinds k))
  · intro hok
    exact ⟨_, rfl, fun k => (kinds_replay k h.entries).trans ((hkey k).mpr (hok k))⟩

/-- A container that was there gets a property change in one batch and goes in the next. -/
def propertyThenDelete : History fun _ => true where
  entries :=
    [⟨[.updateContainerProperty 1], .u32, .u64, by decide⟩, ⟨[.deleteContainer 1], .u32, .u64, by decide⟩]
  alternates k := by
    by_cases hk : Key.container (1 : UInt32).toUInt64 = k
    · subst hk
      decide
    · have hupdate : changeKey (.updateContainerProperty 1) ≠ k := hk
      have hdelete : changeKey (.deleteContainer 1) ≠ k := hk
      simp [batches, events, hupdate, hdelete, Alternates]

/-- The property change stays behind next to the delete. -/
theorem replay_ne_net :
    ¬ ∀ (present : Key → Bool) (h : History present), ∃ q, replay h.entries = some q ∧
      ∀ k, kinds k q.changes = (net (present k) (batches k h.entries).flatten).toList := by
  intro hall
  obtain ⟨q, hq, hkinds⟩ := hall _ propertyThenDelete
  have hread := hkinds (.container (1 : UInt32).toUInt64)
  rw [replay_eq] at hq
  obtain rfl := Option.some.inj hq
  rw [kinds_replay] at hread
  cases hread

end MailServer.Store.Query
