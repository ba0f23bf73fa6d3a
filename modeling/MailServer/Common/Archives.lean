import MailServer.Email.Mailbox
import MailServer.Utils.Writes

/-!
# Archives that a batch writes

The writes of a batch change archives of documents, each asserted to be the one that was read if it is replaced.

* `Archives`: the archives of one collection in a state, and what a write does to them.
* `Archives.getElem?_of_applyAll`: what a batch leaves.
-/

namespace MailServer.Common

open MailServer.Utils MailServer.Lib MailServer.Email List

variable {σ ω V : Type*}

theorem flatten_singletons {α β : Type*} (f : α → β) (l : List α) : (l.map fun x => [f x]).flatten = l.map f := by
  induction l with
  | nil => rfl
  | cons x l ih => rw [map_cons, flatten_cons, ih, map_cons, singleton_append]

theorem applyAll_of_commitGroups {α : Type*} {apply : σ → ω → Option σ} {cuts : List ℕ} {f : α → ω} {l : List α} {s : σ}
    (hok : (commitGroups apply cuts (l.map fun x => [f x]) s).2 = true) :
    applyAll apply (l.map f) s = some (commitGroups apply cuts (l.map fun x => [f x]) s).1 := by
  obtain ⟨k, hk, hall⟩ := commitGroups_spec apply cuts (l.map fun x => [f x]) s
  rw [hall hok, flatten_singletons] at hk
  exact hk

/-- A write of an archive that is in the collection: the document, what was read of it, and what is to be there. -/
structure Archives (apply : σ → ω → Option σ) (hash : V → UInt32) where
  docs : σ → HashMap ℕ V
  write : ω → Option (ℕ × Option V × Option V)
  of_write : ∀ s w s' id current changes, apply s w = some s' → write w = some (id, current, changes) →
    putArchive hash (docs s) id current changes = some (docs s')
  of_none : ∀ s w s', apply s w = some s' → write w = none → docs s' = docs s

namespace Archives

variable {apply : σ → ω → Option σ} {hash : V → UInt32} (c : Archives apply hash) {ws : List ω} {s s' : σ}

/-- What is written to the collection. -/
def writes (ws : List ω) : List (ℕ × Option V) := ws.filterMap fun w => (c.write w).map fun e => (e.1, e.2.2)

theorem writes_append (ws ws' : List ω) : c.writes (ws ++ ws') = c.writes ws ++ c.writes ws' := filterMap_append

theorem mem_writes {id : ℕ} {changes : Option V} :
    (id, changes) ∈ c.writes ws ↔ ∃ w ∈ ws, ∃ current, c.write w = some (id, current, changes) := by
  unfold writes
  rw [mem_filterMap]
  refine exists_congr fun w => and_congr_right fun _ => ?_
  rw [Option.map_eq_some_iff]
  constructor
  · rintro ⟨⟨id', current, changes'⟩, hw, heq⟩
    obtain ⟨rfl, rfl⟩ := Prod.mk.inj heq
    exact ⟨current, hw⟩
  · rintro ⟨current, hw⟩
    exact ⟨_, hw, rfl⟩

/-- **After a batch** the collection has its writes. -/
theorem getElem?_of_applyAll (hok : applyAll apply ws s = some s') (id : ℕ) :
    (c.docs s')[id]? = ((c.docs s).putAll (c.writes ws))[id]? := by
  induction ws generalizing s with
  | nil =>
    obtain rfl := Option.some.inj hok
    rfl
  | cons w ws ih =>
    rw [applyAll] at hok
    cases hw : apply s w with
    | none => rw [hw] at hok; cases hok
    | some s₁ =>
      rw [hw] at hok
      rw [ih hok]
      unfold writes
      rw [filterMap_cons]
      cases hwrite : c.write w with
      | none => rw [c.of_none s w s₁ hw hwrite]; rfl
      | some e =>
        obtain ⟨id', current, changes⟩ := e
        refine HashMap.getElem?_putAll_congr (fun k => ?_) id
        rw [HashMap.getElem?_put]
        exact putArchive_eq (c.of_write s w s₁ id' current changes hw hwrite) k

/-- The hashes tell what is written from what was read. -/
def HashesTell (ws : List ω) : Prop :=
  ∀ w ∈ ws, ∀ id e e', c.write w = some (id, some e, some e') → hash e' ≠ hash e

/-- Every write asserts what was read at one time. -/
def Reads (read : ℕ → Option V) (ws : List ω) : Prop :=
  ∀ w ∈ ws, ∀ id current changes, c.write w = some (id, current, changes) → ∃ e, current = some e ∧ read id = some e

variable {c}

/-- **A batch that is written** writes no archive twice: the second write would assert the archive that the first one
replaced. -/
theorem nodup_of_applyAll {read : ℕ → Option V} (hread : c.Reads read ws) (htell : c.HashesTell ws)
    (hok : applyAll apply ws s = some s') :
    ((c.writes ws).map Prod.fst).Nodup ∧ ∀ id ∈ (c.writes ws).map Prod.fst, ∃ stored e, (c.docs s)[id]? = some stored ∧
      read id = some e ∧ hash stored = hash e := by
  induction ws generalizing s with
  | nil => exact ⟨nodup_nil, nofun⟩
  | cons w ws ih =>
    rw [applyAll] at hok
    cases hw : apply s w with
    | none => rw [hw] at hok; cases hok
    | some s₁ =>
      rw [hw] at hok
      obtain ⟨hnodup, hhash⟩ := ih (fun x hx => hread x (mem_cons_of_mem _ hx))
        (fun x hx => htell x (mem_cons_of_mem _ hx)) hok
      cases hwrite : c.write w with
      | none =>
        have hcons : c.writes (w :: ws) = c.writes ws := by
          unfold writes
          rw [filterMap_cons, hwrite]
          rfl
        rw [c.of_none s w s₁ hw hwrite] at hhash
        rw [hcons]
        exact ⟨hnodup, hhash⟩
      | some e =>
        obtain ⟨id, current, changes⟩ := e
        obtain ⟨e, rfl, he⟩ := hread w mem_cons_self id current changes hwrite
        have hput := c.of_write s w s₁ id (some e) changes hw hwrite
        have hcons : (c.writes (w :: ws)).map Prod.fst = id :: (c.writes ws).map Prod.fst := by
          unfold writes
          rw [filterMap_cons, hwrite]
          rfl
        obtain ⟨stored, hstored, hsame⟩ := putArchive_current hput
        have hnot : id ∉ (c.writes ws).map Prod.fst := by
          intro hmem
          obtain ⟨stored', e', hstored', he', hafter⟩ := hhash id hmem
          obtain rfl := Option.some.inj (he.symm.trans he')
          rw [putArchive_eq hput, if_pos rfl] at hstored'
          subst hstored'
          exact htell w mem_cons_self id e stored' hwrite hafter
        rw [hcons]
        refine ⟨nodup_cons.mpr ⟨hnot, hnodup⟩, fun k hk => ?_⟩
        rcases mem_cons.mp hk with rfl | hk
        · exact ⟨stored, e, hstored, he, hsame⟩
        · obtain ⟨stored', e', hstored', hrest⟩ := hhash k hk
          have hne : id ≠ k := fun heq => hnot (heq ▸ hk)
          rw [putArchive_eq hput, if_neg hne] at hstored'
          exact ⟨stored', e', hstored', hrest⟩

end Archives

end MailServer.Common
