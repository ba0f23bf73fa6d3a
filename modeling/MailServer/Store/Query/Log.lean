import MailServer.Store.Write.Log

/-!
# Reading the change log (`store/src/query/log.rs`)

The entries of a log are folded into one list of changes in the order in which a client may replay
them: an update moves to the end, an update of something inserted is dropped, a delete takes the
insert or the update before it away.

* `Changes.deserialize`: one entry.
* `absorb`: the same on the sets of the entry.
* `deserialize_serialize`: reading an entry that was written is `absorb`.
-/

namespace MailServer.Store.Query

open MailServer.Lib MailServer.Utils

inductive Change where
  | insertContainer (id : UInt64)
  | updateContainer (id : UInt64)
  | updateContainerProperty (id : UInt64)
  | deleteContainer (id : UInt64)
  | insertItem (id : UInt64)
  | updateItem (id : UInt64)
  | deleteItem (id : UInt64)
  deriving DecidableEq

namespace Change

def isContainerChange : Change → Bool
  | insertContainer _ | updateContainer _ | updateContainerProperty _ | deleteContainer _ => true
  | _ => false

def isItemChange : Change → Bool
  | insertItem _ | updateItem _ | deleteItem _ => true
  | _ => false

end Change

/-- `Changes` of the query module. -/
structure Changes where
  changes : List Change
  fromChangeId : ℕ
  toChangeId : ℕ
  containerChangeId : Option ℕ
  itemChangeId : Option ℕ
  isTruncated : Bool

instance : Inhabited Changes := ⟨⟨[], 0, 0, none, none, false⟩⟩

/-! ## One id of an entry -/

/-- The first change that an update of a container looks for. -/
def meetsContainerUpdate (id : UInt64) : Change → Bool
  | .insertContainer i | .updateContainer i | .updateContainerProperty i => i = id
  | _ => false

def meetsContainerDelete (id : UInt64) : Change → Bool
  | .insertContainer i | .updateContainer i => i = id
  | _ => false

/-- The first change that an update or a delete of an item looks for. -/
def meetsItem (id : UInt64) : Change → Bool
  | .insertItem i | .updateItem i => i = id
  | _ => false

def insertContainer (changes : List Change) (id : UInt64) : List Change :=
  changes ++ [.insertContainer id]

def updateContainer (isPropertyChange : Bool) (changes : List Change) (id : UInt64) : List Change :=
  let update := if isPropertyChange then .updateContainerProperty id else .updateContainer id
  match changes.find? (meetsContainerUpdate id) with
  -- updated after inserted, no need to count this change
  | some (.insertContainer _) => changes
  -- move update to the front; a full update stays one
  | some (.updateContainer _) => changes.eraseP (meetsContainerUpdate id) ++ [.updateContainer id]
  | some _ => changes.eraseP (meetsContainerUpdate id) ++ [update]
  | none => changes ++ [update]

def deleteContainer (changes : List Change) (id : UInt64) : List Change :=
  match changes.find? (meetsContainerDelete id) with
  | some (.insertContainer _) => changes.eraseP (meetsContainerDelete id)
  | some _ => changes.eraseP (meetsContainerDelete id) ++ [.deleteContainer id]
  | none => changes ++ [.deleteContainer id]

def insertItem (changes : List Change) (id : UInt64) : List Change := changes ++ [.insertItem id]

def updateItem (changes : List Change) (id : UInt64) : List Change :=
  match changes.find? (meetsItem id) with
  | some (.insertItem _) => changes
  | some _ => changes.eraseP (meetsItem id) ++ [.updateItem id]
  | none => changes ++ [.updateItem id]

def deleteItem (changes : List Change) (id : UInt64) : List Change :=
  match changes.find? (meetsItem id) with
  | some (.insertItem _) => changes.eraseP (meetsItem id)
  | some _ => changes.eraseP (meetsItem id) ++ [.deleteItem id]
  | none => changes ++ [.deleteItem id]

/-! ## One entry -/

/-- `next_leb128` of a 64-bit integer. -/
def nextLeb128 (bytes : List UInt8) : Option (UInt64 × List UInt8) :=
  (readLeb128 64 10 0 0 bytes).map fun r => (UInt64.ofNat r.1, r.2)

/-- `n` ids from position `pos` on, each handed to `f` with its position. -/
def forIds (f : ℕ → List Change → UInt64 → List Change) :
    ℕ → ℕ → List Change × List UInt8 → Option (List Change × List UInt8)
  | _, 0, s => some s
  | pos, n + 1, (changes, bytes) => do
    let (id, bytes) ← nextLeb128 bytes
    forIds f (pos + 1) n (f pos changes id, bytes)

/-- `Changes::deserialize`, with whether the entry has container and item changes. -/
def Changes.deserialize (c : Changes) (bytes : List UInt8) : Option (Changes × Bool × Bool) := do
  let (containerInserts, bytes) ← nextLeb128 bytes
  let (containerUpdates, bytes) ← nextLeb128 bytes
  let (containerPropertyChanges, bytes) ← nextLeb128 bytes
  let (containerDeletes, bytes) ← nextLeb128 bytes
  let (itemInserts, bytes) ← nextLeb128 bytes
  let (itemUpdates, bytes) ← nextLeb128 bytes
  let (itemDeletes, bytes) ← nextLeb128 bytes
  let hasContainerChanges := decide (0 < containerInserts.toNat + containerUpdates.toNat +
    containerPropertyChanges.toNat + containerDeletes.toNat)
  let hasItemChanges := decide (0 < itemInserts.toNat + itemUpdates.toNat + itemDeletes.toNat)
  let s ← forIds (fun _ => insertContainer) 0 containerInserts.toNat (c.changes, bytes)
  let s ← forIds (fun pos => updateContainer (containerUpdates.toNat ≤ pos)) 0
    (containerUpdates.toNat + containerPropertyChanges.toNat) s
  let s ← forIds (fun _ => deleteContainer) 0 containerDeletes.toNat s
  let s ← forIds (fun _ => insertItem) 0 itemInserts.toNat s
  let s ← forIds (fun _ => updateItem) 0 itemUpdates.toNat s
  let s ← forIds (fun _ => deleteItem) 0 itemDeletes.toNat s
  some ({ c with changes := s.1 }, hasContainerChanges, hasItemChanges)

/-! ## Reading what was written -/

/-- The loops of an entry, one list of ids after the other. -/
def absorbIds (a b c d x y z : List UInt64) (l : List Change) : List Change :=
  let l := a.foldl insertContainer l
  let l := b.foldl (updateContainer false) l
  let l := c.foldl (updateContainer true) l
  let l := d.foldl deleteContainer l
  let l := x.foldl insertItem l
  let l := y.foldl updateItem l
  z.foldl deleteItem l

/-- An entry on its sets. -/
def absorb (o : HashOrder UInt32) (p : HashOrder UInt64) (l : List Change) (c : Write.Changes) :
    List Change :=
  absorbIds ((o.iter c.containerInserts).map UInt32.toUInt64)
    ((o.iter c.containerUpdates).map UInt32.toUInt64)
    ((o.iter c.containerPropertyChanges).map UInt32.toUInt64)
    ((o.iter c.containerDeletes).map UInt32.toUInt64) (p.iter c.itemInserts) (p.iter c.itemUpdates)
    (p.iter c.itemDeletes) l

/-- The counts of an entry fit a machine word. -/
structure Fits (c : Write.Changes) : Prop where
  inserts : c.itemInserts.card < 2 ^ 64
  updates : c.itemUpdates.card < 2 ^ 64
  deletes : c.itemDeletes.card < 2 ^ 64

theorem nextLeb128_leb128 {v : ℕ} (hv : v < 2 ^ 64) (rest : List UInt8) :
    nextLeb128 (leb128 v ++ rest) = some (UInt64.ofNat v, rest) := by
  rw [nextLeb128, readLeb128_leb128 (n := 9) rest (by omega) hv]
  rfl

/-- The ids of a list, written one after the other. -/
def encodeIds (ids : List UInt64) : List UInt8 := ids.flatMap fun id => leb128 id.toNat

theorem forIds_encodeIds {f : ℕ → List Change → UInt64 → List Change}
    {g : List Change → UInt64 → List Change} {ids : List UInt64} {pos : ℕ}
    (hf : ∀ i < ids.length, f (pos + i) = g) (l : List Change) (rest : List UInt8) :
    forIds f pos ids.length (l, encodeIds ids ++ rest) = some (ids.foldl g l, rest) := by
  induction ids generalizing pos l with
  | nil => rfl
  | cons id ids ih =>
    have hid : UInt64.ofNat id.toNat = id := UInt64.ofNat_toNat
    have hbytes : encodeIds (id :: ids) ++ rest = leb128 id.toNat ++ (encodeIds ids ++ rest) := by
      simp [encodeIds]
    have hrest : ∀ i < ids.length, f (pos + 1 + i) = g := by
      intro i hi
      have := hf (i + 1) (by simpa using hi)
      rwa [Nat.add_right_comm pos 1 i]
    have hhead : f pos = g := hf 0 (by simp)
    rw [hbytes, List.length_cons, forIds, nextLeb128_leb128 id.toNat_lt]
    show forIds f (pos + 1) ids.length (f pos l (UInt64.ofNat id.toNat), _) = _
    rw [hid, hhead, ih hrest]
    rfl

theorem forIds_add (f : ℕ → List Change → UInt64 → List Change) (m n : ℕ) :
    ∀ (pos : ℕ) (s : List Change × List UInt8),
      forIds f pos (m + n) s = (forIds f pos m s).bind (forIds f (pos + m) n) := by
  induction m with
  | zero =>
    intro pos s
    rw [Nat.zero_add]
    rfl
  | succ m ih =>
    intro pos s
    obtain ⟨l, bytes⟩ := s
    rw [Nat.succ_add, forIds, forIds]
    rcases nextLeb128 bytes with _ | ⟨id, bytes'⟩
    · rfl
    · show forIds f (pos + 1) (m + n) (f pos l id, bytes') = _
      rw [ih, Nat.add_right_comm]
      rfl

theorem encodeIds_map_toUInt64 (ids : List UInt32) :
    encodeIds (ids.map UInt32.toUInt64) = ids.flatMap fun id => leb128 id.toNat := by
  simp [encodeIds, List.flatMap_map]

theorem card_lt (s : Finset UInt32) : s.card < 2 ^ 64 := by
  have hinj : Function.Injective (fun v : UInt32 => (⟨v.toNat, v.toNat_lt⟩ : Fin (2 ^ 32))) := by
    intro v w h
    exact UInt32.toNat_inj.mp (Fin.mk.inj h)
  have hcard := Finset.card_le_univ (s.map ⟨_, hinj⟩)
  rw [Finset.card_map, Fintype.card_fin] at hcard
  omega

theorem forIds_const (g : List Change → UInt64 → List Change) (ids : List UInt64) (l : List Change)
    (rest : List UInt8) :
    forIds (fun _ => g) 0 ids.length (l, encodeIds ids ++ rest) = some (ids.foldl g l, rest) :=
  forIds_encodeIds (fun _ _ => rfl) l rest

theorem forIds_updates (m k : List UInt64) (l : List Change) (rest : List UInt8) :
    forIds (fun pos => updateContainer (m.length ≤ pos)) 0 (m.length + k.length)
      (l, encodeIds m ++ (encodeIds k ++ rest)) =
      some (k.foldl (updateContainer true) (m.foldl (updateContainer false) l), rest) := by
  have hfull : ∀ i < m.length, (fun pos : ℕ => updateContainer (m.length ≤ pos)) (0 + i) =
      updateContainer false := by
    intro i hi
    have hlt : ¬ m.length ≤ 0 + i := by omega
    show updateContainer (decide (m.length ≤ 0 + i)) = _
    rw [decide_eq_false hlt]
  have hproperty : ∀ i < k.length, (fun pos : ℕ => updateContainer (m.length ≤ pos)) (0 + m.length + i) =
      updateContainer true := by
    intro i _
    have hle : m.length ≤ 0 + m.length + i := by omega
    show updateContainer (decide (m.length ≤ 0 + m.length + i)) = _
    rw [decide_eq_true hle]
  rw [forIds_add, forIds_encodeIds hfull]
  exact forIds_encodeIds hproperty _ rest

theorem deserialize_lists (q : Changes) (a b c d x y z : List UInt64)
    (ha : a.length < 2 ^ 64) (hb : b.length < 2 ^ 64) (hc : c.length < 2 ^ 64) (hd : d.length < 2 ^ 64)
    (hx : x.length < 2 ^ 64) (hy : y.length < 2 ^ 64) (hz : z.length < 2 ^ 64) :
    q.deserialize (leb128 a.length ++ (leb128 b.length ++ (leb128 c.length ++ (leb128 d.length ++
      (leb128 x.length ++ (leb128 y.length ++ (leb128 z.length ++ (encodeIds a ++ (encodeIds b ++
      (encodeIds c ++ (encodeIds d ++ (encodeIds x ++ (encodeIds y ++ (encodeIds z ++ []))))))))))))))
      = some ({ q with changes := absorbIds a b c d x y z q.changes },
        decide (0 < a.length + b.length + c.length + d.length),
        decide (0 < x.length + y.length + z.length)) := by
  have hnat {n : ℕ} (h : n < 2 ^ 64) : (UInt64.ofNat n).toNat = n := by
    exact Nat.mod_eq_of_lt h
  unfold Changes.deserialize
  simp only [nextLeb128_leb128 ha, nextLeb128_leb128 hb, nextLeb128_leb128 hc, nextLeb128_leb128 hd,
    nextLeb128_leb128 hx, nextLeb128_leb128 hy, nextLeb128_leb128 hz, Option.bind_eq_bind,
    Option.bind_some, hnat ha, hnat hb, hnat hc, hnat hd, hnat hx, hnat hy, hnat hz,
    forIds_const, forIds_updates, absorbIds]

theorem serialize_eq (o : HashOrder UInt32) (p : HashOrder UInt64) (c : Write.Changes) :
    c.serialize o p = leb128 c.containerInserts.card ++ (leb128 c.containerUpdates.card ++
      (leb128 c.containerPropertyChanges.card ++ (leb128 c.containerDeletes.card ++
      (leb128 c.itemInserts.card ++ (leb128 c.itemUpdates.card ++ (leb128 c.itemDeletes.card ++
      (encodeIds ((o.iter c.containerInserts).map UInt32.toUInt64) ++
      (encodeIds ((o.iter c.containerUpdates).map UInt32.toUInt64) ++
      (encodeIds ((o.iter c.containerPropertyChanges).map UInt32.toUInt64) ++
      (encodeIds ((o.iter c.containerDeletes).map UInt32.toUInt64) ++
      (encodeIds (p.iter c.itemInserts) ++ (encodeIds (p.iter c.itemUpdates) ++
      (encodeIds (p.iter c.itemDeletes) ++ []))))))))))))) := by
  simp only [Write.Changes.serialize, encodeIds_map_toUInt64, List.flatMap_cons, List.append_assoc]
  rfl

/-- **Reading an entry** that was written adds its sets, and says whether they were empty. -/
theorem deserialize_serialize (o : HashOrder UInt32) (p : HashOrder UInt64) (q : Changes)
    {c : Write.Changes} (h : Fits c) :
    q.deserialize (c.serialize o p) =
      some ({ q with changes := absorb o p q.changes c }, c.hasContainerChanges, c.hasItemChanges) := by
  have ho (s : Finset UInt32) : ((o.iter s).map UInt32.toUInt64).length = s.card := by
    rw [List.length_map, o.length_iter]
  have hp (s : Finset UInt64) : (p.iter s).length = s.card := p.length_iter s
  have hlists := deserialize_lists q ((o.iter c.containerInserts).map UInt32.toUInt64)
    ((o.iter c.containerUpdates).map UInt32.toUInt64)
    ((o.iter c.containerPropertyChanges).map UInt32.toUInt64)
    ((o.iter c.containerDeletes).map UInt32.toUInt64) (p.iter c.itemInserts) (p.iter c.itemUpdates)
    (p.iter c.itemDeletes)
  simp only [ho, hp] at hlists
  have hcontainer : decide (0 < c.containerInserts.card + c.containerUpdates.card +
      c.containerPropertyChanges.card + c.containerDeletes.card) = c.hasContainerChanges := by
    simp only [Write.Changes.hasContainerChanges, Nat.add_pos_iff_pos_or_pos, Finset.card_pos,
      Finset.nonempty_iff_ne_empty, or_assoc]
  have hitem : decide (0 < c.itemInserts.card + c.itemUpdates.card + c.itemDeletes.card) =
      c.hasItemChanges := by
    simp [Write.Changes.hasItemChanges, Finset.nonempty_iff_ne_empty, or_assoc]
  rw [serialize_eq, hlists (card_lt _) (card_lt _) (card_lt _) (card_lt _) h.inserts h.updates h.deletes,
    hcontainer, hitem]
  rfl

end MailServer.Store.Query
