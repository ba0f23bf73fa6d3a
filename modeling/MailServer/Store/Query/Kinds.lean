import MailServer.Store.Query.Log

/-!
# The log seen from one id

Whatever else the log says, the changes of one container or item follow their own rules: each function
of the reader acts on the kinds of one id as a small automaton and leaves the others alone.

* `kinds`: the kinds of change that a list reports for an id, in order.
* `Bits`: the sets of an entry that hold the id.
* `kinds_absorb`: an entry acts on the kinds of an id through its bits.
* `bits_ofLog`: the bits follow the changes announced for the id.
-/

namespace MailServer.Store.Query

open MailServer.Utils MailServer.Store.Write List

/-- What a change is about. -/
inductive Key where
  | container (id : UInt64)
  | item (id : UInt64)
  deriving DecidableEq

inductive Kind where
  | insert | update | property | delete
  deriving DecidableEq

def Change.key : Change → Key
  | insertContainer id | updateContainer id | updateContainerProperty id | deleteContainer id =>
    .container id
  | insertItem id | updateItem id | deleteItem id => .item id

open Change

def Change.kind : Change → Kind
  | insertContainer _ | insertItem _ => .insert
  | updateContainer _ | updateItem _ => .update
  | updateContainerProperty _ => .property
  | deleteContainer _ | deleteItem _ => .delete

/-- The kinds reported for a key. -/
def kinds (k : Key) (l : List Change) : List Kind :=
  l.filterMap fun c => if c.key = k then some c.kind else none

theorem kinds_append (k : Key) (l m : List Change) : kinds k (l ++ m) = kinds k l ++ kinds k m := by
  simp [kinds]

theorem kinds_singleton (k : Key) (c : Change) :
    kinds k [c] = if c.key = k then [c.kind] else [] := by
  by_cases h : c.key = k
  · simp [kinds, h]
  · simp [kinds, h]

theorem kinds_concat (k : Key) (l : List Change) (c : Change) :
    kinds k (l ++ [c]) = if c.key = k then kinds k l ++ [c.kind] else kinds k l := by
  rw [kinds_append, kinds_singleton]
  split_ifs
  · rfl
  · exact append_nil _

/-! ## Searches of one key -/

section

variable {k : Key} {P : Change → Bool} {Q : Kind → Bool}

section

variable (hP : ∀ c, P c = (decide (c.key = k) && Q c.kind))
include hP

theorem find?_kinds (l : List Change) :
    (l.find? P).map kind = (kinds k l).find? Q := by
  induction l with
  | nil => rfl
  | cons c l ih =>
    have hcons : kinds k (c :: l) = if c.key = k then c.kind :: kinds k l else kinds k l := by
      have := kinds_append k [c] l
      rw [singleton_append, kinds_singleton] at this
      rw [this]
      split_ifs <;> rfl
    rw [hcons]
    by_cases hc : P c
    · have hkey := hc
      rw [hP, Bool.and_eq_true, decide_eq_true_iff] at hkey
      rw [find?_cons_of_pos hc, if_pos hkey.1, find?_cons_of_pos hkey.2]
      rfl
    · have hkey : ¬ (c.key = k ∧ Q c.kind) := by
        rw [hP, Bool.and_eq_true, decide_eq_true_iff] at hc
        exact hc
      rw [find?_cons_of_neg hc, ih]
      split_ifs with hk
      · rw [find?_cons_of_neg fun hq => hkey ⟨hk, hq⟩]
      · rfl

theorem key_of_find? {l : List Change} {c : Change}
    (h : l.find? P = some c) : c.key = k ∧ Q c.kind := by
  have hc := find?_some h
  rw [hP, Bool.and_eq_true, decide_eq_true_iff] at hc
  exact hc

theorem kinds_eraseP (j : Key) (l : List Change) :
    kinds j (l.eraseP P) = if j = k then (kinds j l).eraseP Q else kinds j l := by
  induction l with
  | nil => simp [kinds]
  | cons c l ih =>
    have hcons (m : List Change) : kinds j (c :: m) = (if c.key = j then [c.kind] else []) ++ kinds j m := by
      rw [← kinds_singleton, ← kinds_append]
      rfl
    by_cases hp : P c
    · have hkey := hp
      rw [hP, Bool.and_eq_true, decide_eq_true_iff] at hkey
      rw [eraseP_cons_of_pos hp, hcons]
      split_ifs with hj hc hc
      · simp [hkey.2]
      · exact absurd (hkey.1.trans hj.symm) hc
      · exact absurd (hc.symm.trans hkey.1) hj
      · rfl
    · have hkey : ¬ (c.key = k ∧ Q c.kind) := by
        rw [hP, Bool.and_eq_true, decide_eq_true_iff] at hp
        exact hp
      rw [eraseP_cons_of_neg hp, hcons, hcons, ih]
      by_cases hj : j = k
      · subst hj
        by_cases hc : c.key = j
        · have hq : ¬ Q c.kind := fun hq => hkey ⟨hc, hq⟩
          simp [hc, hq]
        · simp [hc]
      · simp [hj]

/-- **An edit of one key**: changes of the key behind the list, or behind what a search leaves of it. -/
theorem kinds_edit (j : Key) {l l' : List Change}
    {g : List Kind → List Kind} (xs : List Change) (hxs : ∀ x ∈ xs, x.key = k)
    (h : l' = l ++ xs ∧ g (kinds k l) = kinds k l ++ xs.map kind ∨
      l' = l.eraseP P ++ xs ∧ g (kinds k l) = (kinds k l).eraseP Q ++ xs.map kind) :
    kinds j l' = if k = j then g (kinds j l) else kinds j l := by
  have hnew : kinds j xs = if k = j then xs.map kind else [] := by
    split_ifs with hj
    · subst hj
      rw [kinds, filterMap_congr fun x hx => if_pos (hxs x hx)]
      exact congrFun filterMap_eq_map xs
    · exact filterMap_eq_nil_iff.mpr fun x hx => if_neg (hxs x hx ▸ hj)
  have herase := kinds_eraseP hP j l
  by_cases hj : k = j
  · subst hj
    rw [if_pos rfl] at hnew herase ⊢
    rcases h with ⟨rfl, hg⟩ | ⟨rfl, hg⟩
    · rw [hg, kinds_append, hnew]
    · rw [hg, kinds_append, hnew, herase]
  · rw [if_neg hj] at hnew ⊢
    rw [if_neg (Ne.symm hj)] at herase
    rcases h with ⟨rfl, -⟩ | ⟨rfl, -⟩
    · rw [kinds_append, hnew, append_nil]
    · rw [kinds_append, hnew, herase, append_nil]

end

end

/-! ## The automaton -/

namespace Kind

/-- What an update of a container looks for. -/
def isLive : Kind → Bool
  | delete => false
  | _ => true

/-- What a delete looks for. -/
def isFull : Kind → Bool
  | insert | update => true
  | _ => false

end Kind

/-- An update of one key. -/
def updateKinds (isPropertyChange : Bool) (s : List Kind) : List Kind :=
  let change := if isPropertyChange then Kind.property else Kind.update
  match s.find? Kind.isLive with
  | some .insert => s
  | some .update => s.eraseP Kind.isLive ++ [.update]
  | some _ => s.eraseP Kind.isLive ++ [change]
  | none => s ++ [change]

/-- A delete of one key. -/
def deleteKinds (s : List Kind) : List Kind :=
  match s.find? Kind.isFull with
  | some .insert => s.eraseP Kind.isFull
  | some _ => s.eraseP Kind.isFull ++ [.delete]
  | none => s ++ [.delete]

theorem meetsContainerUpdate_eq (id : UInt64) (c : Change) :
    meetsContainerUpdate id c = (decide (c.key = .container id) && c.kind.isLive) := by
  cases c <;> simp [meetsContainerUpdate, key, kind, Kind.isLive]

theorem meetsContainerDelete_eq (id : UInt64) (c : Change) :
    meetsContainerDelete id c = (decide (c.key = .container id) && c.kind.isFull) := by
  cases c <;> simp [meetsContainerDelete, key, kind, Kind.isFull]

theorem meetsItem_eq (id : UInt64) (c : Change) :
    meetsItem id c = (decide (c.key = .item id) && c.kind.isFull) := by
  cases c <;> simp [meetsItem, key, kind, Kind.isFull]

theorem kinds_updateContainer (b : Bool) (k : Key) (l : List Change) (id : UInt64) :
    kinds k (updateContainer b l id) =
      if .container id = k then updateKinds b (kinds k l) else kinds k l := by
  have hfind := find?_kinds (meetsContainerUpdate_eq id) l
  have hkind : (if b then Change.updateContainerProperty id else Change.updateContainer id).kind =
      if b then .property else .update := by cases b <;> rfl
  have hkey : (if b then Change.updateContainerProperty id else Change.updateContainer id).key =
      .container id := by cases b <;> rfl
  have hedit := @kinds_edit _ _ _ (meetsContainerUpdate_eq id) k l
  unfold updateContainer
  rcases hf : l.find? (meetsContainerUpdate id) with _ | c <;> rw [hf] at hfind
  · exact hedit [_] (by simp [hkey]) (.inl ⟨rfl, by simp [updateKinds, ← hfind, hkind]⟩)
  · obtain ⟨hc, hlive⟩ := key_of_find? (meetsContainerUpdate_eq id) hf
    cases c
    case insertContainer => exact hedit [] (by simp) (.inl ⟨by simp, by simp [updateKinds, ← hfind, Change.kind]⟩)
    case updateContainer =>
      exact hedit [.updateContainer id] (by simp [Change.key])
        (.inr ⟨rfl, by simp [updateKinds, ← hfind, Change.kind]⟩)
    case updateContainerProperty =>
      exact hedit [_] (by simp [hkey]) (.inr ⟨rfl, by rw [map_singleton, hkind, updateKinds, ← hfind]; rfl⟩)
    case deleteContainer => exact absurd hlive Bool.false_ne_true
    all_goals exact Key.noConfusion hc

theorem kinds_deleteContainer (k : Key) (l : List Change) (id : UInt64) :
    kinds k (deleteContainer l id) =
      if .container id = k then deleteKinds (kinds k l) else kinds k l := by
  have hfind := find?_kinds (meetsContainerDelete_eq id) l
  have hedit := @kinds_edit _ _ _ (meetsContainerDelete_eq id) k l
  have hdelete : ∀ x ∈ [Change.deleteContainer id], x.key = .container id := by simp [Change.key]
  unfold deleteContainer
  rcases hf : l.find? (meetsContainerDelete id) with _ | c <;> rw [hf] at hfind
  · exact hedit _ hdelete (.inl ⟨rfl, by simp [deleteKinds, ← hfind, Change.kind]⟩)
  · obtain ⟨hc, hfull⟩ := key_of_find? (meetsContainerDelete_eq id) hf
    cases c
    case insertContainer => exact hedit [] (by simp) (.inr ⟨by simp, by simp [deleteKinds, ← hfind, Change.kind]⟩)
    case updateContainer => exact hedit _ hdelete (.inr ⟨rfl, by simp [deleteKinds, ← hfind, Change.kind]⟩)
    case updateContainerProperty | deleteContainer => exact absurd hfull Bool.false_ne_true
    all_goals exact Key.noConfusion hc

theorem isLive_eq_isFull {id : UInt64} {l : List Change} {x : Kind} (hx : x ∈ kinds (.item id) l) :
    x.isLive = x.isFull := by
  obtain ⟨c, -, hc⟩ := mem_filterMap.mp hx
  split_ifs at hc with hk
  obtain rfl := Option.some.inj hc
  cases c
  case updateContainerProperty => exact Key.noConfusion hk
  all_goals rfl

theorem find?_congr_mem {s : List Kind} {P Q : Kind → Bool} (h : ∀ x ∈ s, P x = Q x) :
    s.find? P = s.find? Q ∧ s.eraseP P = s.eraseP Q := by
  induction s with
  | nil => exact ⟨rfl, rfl⟩
  | cons x s ih =>
    obtain ⟨hfind, herase⟩ := ih fun y hy => h y (mem_cons_of_mem _ hy)
    have hx := h x mem_cons_self
    by_cases hq : Q x
    · simp [hx, hq]
    · simp [hx, hq, hfind, herase]

theorem kinds_changeItem (k : Key) (l : List Change) (id : UInt64) :
    (kinds k (updateItem l id) = if .item id = k then updateKinds false (kinds k l) else kinds k l) ∧
      kinds k (deleteItem l id) = if .item id = k then deleteKinds (kinds k l) else kinds k l := by
  have hfind := find?_kinds (meetsItem_eq id) l
  obtain ⟨hlive, herase⟩ := find?_congr_mem fun x (hx : x ∈ kinds (.item id) l) => isLive_eq_isFull hx
  have hedit := @kinds_edit _ _ _ (meetsItem_eq id) k l
  have hupdate : ∀ x ∈ [Change.updateItem id], x.key = .item id := by simp [Change.key]
  have hdelete : ∀ x ∈ [Change.deleteItem id], x.key = .item id := by simp [Change.key]
  unfold updateItem deleteItem
  rcases hf : l.find? (meetsItem id) with _ | c <;> rw [hf] at hfind
  · exact ⟨hedit _ hupdate (.inl ⟨rfl, by simp [updateKinds, hlive, ← hfind, Change.kind]⟩),
      hedit _ hdelete (.inl ⟨rfl, by simp [deleteKinds, ← hfind, Change.kind]⟩)⟩
  · obtain ⟨hc, hfull⟩ := key_of_find? (meetsItem_eq id) hf
    cases c
    case insertItem =>
      exact ⟨hedit [] (by simp) (.inl ⟨by simp, by simp [updateKinds, hlive, ← hfind, Change.kind]⟩),
        hedit [] (by simp) (.inr ⟨by simp, by simp [deleteKinds, ← hfind, Change.kind]⟩)⟩
    case updateItem =>
      exact ⟨hedit _ hupdate (.inr ⟨rfl, by simp [updateKinds, hlive, ← hfind, herase, Change.kind]⟩),
        hedit _ hdelete (.inr ⟨rfl, by simp [deleteKinds, ← hfind, Change.kind]⟩)⟩
    case deleteItem => exact absurd hfull Bool.false_ne_true
    all_goals exact Key.noConfusion hc

/-! ## An entry -/

theorem kinds_foldl {f : List Change → UInt64 → List Change} {g : List Kind → List Kind}
    {key : UInt64 → Key} (hkey : Function.Injective key)
    (hf : ∀ k l id, kinds k (f l id) = if key id = k then g (kinds k l) else kinds k l) (k : Key)
    {ids : List UInt64} (hids : ids.Nodup) (l : List Change) :
    kinds k (ids.foldl f l) = if ∃ id ∈ ids, key id = k then g (kinds k l) else kinds k l := by
  induction ids generalizing l with
  | nil => simp
  | cons id ids ih =>
    obtain ⟨hnot, hrest⟩ := nodup_cons.mp hids
    rw [foldl_cons, ih hrest, hf]
    by_cases hk : key id = k
    · have hno : ¬ ∃ id' ∈ ids, key id' = k := by
        rintro ⟨id', hmem, hk'⟩
        exact hnot (hkey (hk.trans hk'.symm) ▸ hmem)
      rw [if_neg hno, if_pos hk, if_pos ⟨id, mem_cons_self, hk⟩]
    · have hiff : (∃ id' ∈ id :: ids, key id' = k) ↔ ∃ id' ∈ ids, key id' = k := by
        simp [hk]
      simp only [if_neg hk, hiff]

/-- The sets of an entry that hold a key. -/
structure Bits where
  insert : Bool
  update : Bool
  property : Bool
  delete : Bool
  deriving DecidableEq

/-- The bits of a key. -/
def bits (c : Write.Changes) : Key → Bits
  | .container id =>
    ⟨id ∈ c.containerInserts.image UInt32.toUInt64, id ∈ c.containerUpdates.image UInt32.toUInt64,
      id ∈ c.containerPropertyChanges.image UInt32.toUInt64,
      id ∈ c.containerDeletes.image UInt32.toUInt64⟩
  | .item id => ⟨id ∈ c.itemInserts, id ∈ c.itemUpdates, false, id ∈ c.itemDeletes⟩

/-- What an entry does to the kinds of a key. -/
def Bits.entry (b : Bits) (s : List Kind) : List Kind :=
  let s := if b.insert then s ++ [.insert] else s
  let s := if b.update then updateKinds false s else s
  let s := if b.property then updateKinds true s else s
  if b.delete then deleteKinds s else s

theorem toUInt64_injective : Function.Injective UInt32.toUInt64 := by
  intro v w h
  have := congrArg UInt64.toNat h
  exact UInt32.toNat_inj.mp (by simpa using this)

theorem container_injective : Function.Injective Key.container := fun _ _ h => Key.container.inj h

theorem item_injective : Function.Injective Key.item := fun _ _ h => Key.item.inj h

/-- **An entry**, seen from one key. -/
theorem kinds_absorb (o : HashOrder UInt32) (p : HashOrder UInt64) (k : Key) (l : List Change)
    (c : Write.Changes) : kinds k (absorb o p l c) = (bits c k).entry (kinds k l) := by
  have ho (s : Finset UInt32) : ((o.iter s).map UInt32.toUInt64).Nodup :=
    (o.nodup s).map toUInt64_injective
  have hp (s : Finset UInt64) : (p.iter s).Nodup := p.nodup s
  have hitem (l : List Change) (s : Finset UInt64) (f : List Change → UInt64 → List Change)
      (g : List Kind → List Kind)
      (hf : ∀ k l id, kinds k (f l id) = if Key.item id = k then g (kinds k l) else kinds k l) :
      kinds k ((p.iter s).foldl f l) =
        if ∃ id ∈ s, Key.item id = k then g (kinds k l) else kinds k l := by
    rw [kinds_foldl item_injective hf k (hp s)]
    simp [p.mem_iter]
  have hcontainer (l : List Change) (s : Finset UInt32) (f : List Change → UInt64 → List Change)
      (g : List Kind → List Kind)
      (hf : ∀ k l id, kinds k (f l id) = if Key.container id = k then g (kinds k l) else kinds k l) :
      kinds k (((o.iter s).map UInt32.toUInt64).foldl f l) =
        if ∃ id ∈ s.image UInt32.toUInt64, Key.container id = k then g (kinds k l)
        else kinds k l := by
    rw [kinds_foldl container_injective hf k (ho s)]
    refine if_congr (exists_congr fun id => and_congr_left fun _ => ?_) rfl rfl
    rw [mem_map, Finset.mem_image]
    exact exists_congr fun v => and_congr_left fun _ => o.mem_iter s v
  rw [absorb, absorbIds, hitem _ _ _ _ fun k l id => (kinds_changeItem k l id).2,
    hitem _ _ _ _ fun k l id => (kinds_changeItem k l id).1,
    hitem _ _ _ (· ++ [.insert]) fun k l id => kinds_concat k l _, hcontainer _ _ _ _ kinds_deleteContainer,
    hcontainer _ _ _ _ (kinds_updateContainer true), hcontainer _ _ _ _ (kinds_updateContainer false),
    hcontainer _ _ _ (· ++ [.insert]) fun k l id => kinds_concat k l _]
  rcases k with id | id
  · simp [bits, Bits.entry]
  · simp [bits, Bits.entry]

/-! ## The announced changes -/

def changeKey : LogChange → Key
  | .insertContainer id | .updateContainer id | .updateContainerProperty id | .deleteContainer id =>
    .container id.toUInt64
  | .insertItem id | .updateItem id | .deleteItem id => .item id

def changeKind : LogChange → Kind
  | .insertContainer _ | .insertItem _ => .insert
  | .updateContainer _ | .updateItem _ => .update
  | .updateContainerProperty _ => .property
  | .deleteContainer _ | .deleteItem _ => .delete

/-- The kinds announced for a key. -/
def events (k : Key) (l : List LogChange) : List Kind :=
  l.filterMap fun r => if changeKey r = k then some (changeKind r) else none

theorem events_concat (k : Key) (l : List LogChange) (r : LogChange) :
    events k (l ++ [r]) =
      if changeKey r = k then events k l ++ [changeKind r] else events k l := by
  by_cases h : changeKey r = k
  · simp [events, h]
  · simp [events, h]

/-- What an announced change does to the bits of its key. -/
def Bits.step (b : Bits) : Kind → Bits
  | .insert => if b.delete then { b with delete := false, update := true } else { b with insert := true }
  | .update => { b with update := true }
  | .property => { b with property := true }
  | .delete => { b with update := false, property := false, delete := true }

theorem bits_log (c : Write.Changes) (r : LogChange) (k : Key) :
    bits (c.log r) k = if changeKey r = k then (bits c k).step (changeKind r) else bits c k := by
  have hinj := toUInt64_injective
  by_cases hk : changeKey r = k
  · subst hk
    cases r
    case insertContainer id =>
      by_cases hd : id ∈ c.containerDeletes
      · simp [Changes.log, Changes.insertContainer, hd, bits, changeKey, changeKind, Bits.step,
          hinj.eq_iff]
      · simp [Changes.log, Changes.insertContainer, hd, bits, changeKey, changeKind, Bits.step,
          hinj.eq_iff]
    case insertItem id =>
      by_cases hd : id ∈ c.itemDeletes
      · simp [Changes.log, Changes.insertItem, hd, bits, changeKey, changeKind, Bits.step]
      · simp [Changes.log, Changes.insertItem, hd, bits, changeKey, changeKind, Bits.step]
    case updateContainer id | updateContainerProperty id | deleteContainer id =>
      simp [Changes.log, Changes.updateContainer, Changes.updateContainerProperty,
        Changes.deleteContainer, bits, changeKey, changeKind, Bits.step, Finset.image_erase hinj]
    case updateItem id | deleteItem id =>
      simp only [Changes.log, Changes.updateItem, Changes.deleteItem, bits, changeKey, Finset.mem_insert_self, Finset.notMem_erase]
      rfl
  · rw [if_neg hk]
    cases r
    case insertContainer id =>
      rcases k with j | j
      · have hne : j ≠ id.toUInt64 := fun h => hk (congrArg Key.container h.symm)
        by_cases hd : id ∈ c.containerDeletes
        · simp [Changes.log, Changes.insertContainer, hd, bits, Finset.image_erase hinj, hne]
        · simp [Changes.log, Changes.insertContainer, hd, bits, hne]
      · simp only [Changes.log, Changes.insertContainer]
        split_ifs <;> rfl
    case insertItem id =>
      rcases k with j | j
      · simp only [Changes.log, Changes.insertItem]
        split_ifs <;> rfl
      · have hne : j ≠ id := fun h => hk (congrArg Key.item h.symm)
        by_cases hd : id ∈ c.itemDeletes
        · simp [Changes.log, Changes.insertItem, hd, bits, hne]
        · simp [Changes.log, Changes.insertItem, hd, bits, hne]
    case updateContainer id | updateContainerProperty id | deleteContainer id =>
      rcases k with j | j
      · have hne : j ≠ id.toUInt64 := fun h => hk (congrArg Key.container h.symm)
        simp [Changes.log, Changes.updateContainer, Changes.updateContainerProperty,
          Changes.deleteContainer, bits, Finset.image_erase hinj, hne]
      · rfl
    case updateItem id | deleteItem id =>
      rcases k with j | j
      · rfl
      · have hne : j ≠ id := fun h => hk (congrArg Key.item h.symm)
        simp only [Changes.log, Changes.updateItem, Changes.deleteItem, bits, Finset.mem_insert,
          Finset.mem_erase, hne, false_or, true_and, ne_eq, not_false_iff]
        rfl

/-- **The bits of a batch** follow the changes announced for the key. -/
theorem bits_ofLog (k : Key) (l : List LogChange) :
    bits (Changes.ofLog l) k = (events k l).foldl Bits.step ⟨false, false, false, false⟩ := by
  induction l using List.reverseRecOn with
  | nil => cases k <;> rfl
  | append_singleton l r ih =>
    rw [Changes.ofLog_concat, bits_log, events_concat, ih]
    split_ifs
    · rw [foldl_concat]
    · rfl

end MailServer.Store.Query
