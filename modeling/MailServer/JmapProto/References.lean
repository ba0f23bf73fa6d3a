import MailServer.JmapProto.Set
import MailServer.Lib.Pieces
import MailServer.Lib.Postorder
import MailServer.Utils.VecMap

/-!
# References by creation id (`jmap-proto/src/references`)

A request names an object that an earlier call, or the same one, creates as `#` and its creation id.  Before a set
request is run, the references of its objects are replaced by the ids of what earlier calls created, and the objects
to create are put in an order in which they follow the objects of the call they refer to.

* `evalObjectReferences`: the replacement in one value, down to a depth.  `resolveReferences`: of a set request.
* `topologicalSort`: the order.
* `references`: the references anywhere in a value.  `replaced`: the value with an id for each it can have.
* `Resolved`: what a set request is to be after resolution.
* `missed`: the references that the walk does not see, or leaves as they are.
-/

namespace MailServer.JmapProto.References

open MailServer.Utils MailServer.Lib List Option

/-! ## Values -/

/-- A JSON value, with numbers as they are written. -/
inductive Value (P E : Type) where
  | null
  | bool (b : Bool)
  | number (digits : String)
  | str (s : String)
  | array (items : List (Value P E))
  | object (entries : List (Key P × Value P E))
  | element (e : E)

/-- `JmapObjectId`: what may be an id or the reference to one. -/
structure JmapObjectId (A T : Type) where
  asIdRef : T → Option String
  /-- `None` where the id is of the wrong kind. -/
  trySetId : T → A → Option T
  asIdRef_of_trySetId : ∀ {t t' : T} {id : A}, trySetId t id = some t' → asIdRef t' = none

/-- `strip_prefix('#')` -/
def stripHash (s : String) : Option String :=
  match s.toList with
  | '#' :: cs => some (String.ofList cs)
  | _ => none

/-- The properties and elements of a type of objects, and ids as text. -/
structure ObjectType (A P E : Type) where
  property : JmapObjectId A P
  element : JmapObjectId A E
  idText : A → String
  stripHash_idText : ∀ id, stripHash (idText id) = none

inductive Error where
  | invalidType
  | notFound (idRef : String)
  | nonExisting (toId fromId : String)
  | cyclical
  /-- From the evaluation of a result reference. -/
  | resultReference (details : String)

inductive JmapEvent where
  | invalidResultReference
  | invalidArguments
  deriving DecidableEq

def Error.event : Error → JmapEvent
  | .cyclical => .invalidArguments
  | _ => .invalidResultReference

/-- The text of the error, with `debug` for a text in quotes. -/
def Error.details (debug : String → String) : Error → String
  | .invalidType => "Id reference points to invalid type."
  | .notFound idRef => "Id reference " ++ debug idRef ++ " not found."
  | .nonExisting toId fromId => "Invalid reference to non-existing object " ++ debug toId ++ " from " ++ debug fromId
  | .cyclical => "Cyclical references are not allowed."
  | .resultReference details => details

/-- For each object to create the references in it to others. -/
abbrev Dependencies := VecMap String (List String)

/-- The references in one object. -/
abbrev dependsOn (graph : Dependencies) (id : String) : List String := (graph.get id).getD []

/-- What a walk reads: the ids made by earlier calls, the object to create it is in (`Graph::Some`), and its limits. -/
structure Walk (A P E : Type) where
  object : ObjectType A P E
  createdIds : String → Option A
  maxDepth : ℕ
  evalStrings : Bool

variable {A P E : Type} (w : Walk A P E)

namespace Walk

/-! ## The walk -/

def evalElement (child : Option String) (graph : Dependencies) (e : E) : Except Error (E × Dependencies) :=
  match w.object.element.asIdRef e with
  | none => .ok (e, graph)
  | some idRef =>
    match w.createdIds idRef, child with
    | some id, _ =>
      match w.object.element.trySetId e id with
      | some e => .ok (e, graph)
      | none => .error .invalidType
    | none, some childId => .ok (e, graph.alter childId (· ++ [idRef]))
    | none, none => .error (.notFound idRef)

def evalText (s : String) : String :=
  match stripHash s with
  | none => s
  | some idRef =>
    match w.createdIds idRef with
    | some id => w.object.idText id
    | none => s

def evalProperty (p : P) : Except Error P :=
  match w.object.property.asIdRef p with
  | none => .ok p
  | some idRef =>
    match w.createdIds idRef with
    | none => .error (.notFound idRef)
    | some id =>
      match w.object.property.trySetId p id with
      | some p => .ok p
      | none => .error .invalidType

def evalKey : Key P → Except Error (Key P)
  | .property p => do
    let p ← w.evalProperty p
    .ok (.property p)
  | .text s => .ok (.text (if w.evalStrings then w.evalText s else s))

mutual

def evalObjectReferences (child : Option String) (graph : Dependencies) (depth : ℕ) :
    Value P E → Except Error (Value P E × Dependencies)
  | .element e => do
    let (e, graph) ← w.evalElement child graph e
    .ok (.element e, graph)
  | .array items =>
    if depth < w.maxDepth then do
      let (items, graph) ← evalItems child graph (depth + 1) items
      .ok (.array items, graph)
    else .ok (.array items, graph)
  | .object entries =>
    if depth < w.maxDepth then do
      let (entries, graph) ← evalEntries child graph (depth + 1) entries
      .ok (.object entries, graph)
    else .ok (.object entries, graph)
  | v => .ok (v, graph)

def evalItems (child : Option String) (graph : Dependencies) (depth : ℕ) :
    List (Value P E) → Except Error (List (Value P E) × Dependencies)
  | [] => .ok ([], graph)
  | v :: items => do
    let (v, graph) ← evalObjectReferences child graph depth v
    let (items, graph) ← evalItems child graph depth items
    .ok (v :: items, graph)

def evalEntries (child : Option String) (graph : Dependencies) (depth : ℕ) :
    List (Key P × Value P E) → Except Error (List (Key P × Value P E) × Dependencies)
  | [] => .ok ([], graph)
  | (k, v) :: entries => do
    let k ← w.evalKey k
    let (v, graph) ← evalObjectReferences child graph depth v
    let (entries, graph) ← evalEntries child graph depth entries
    .ok ((k, v) :: entries, graph)

end

/-! ## References -/

/-- The reference that a key is.  Texts are keys of sets where the walk reads them. -/
def keyReference : Key P → Option String
  | .property p => w.object.property.asIdRef p
  | .text s => if w.evalStrings then stripHash s else none

mutual

/-- The references in a value, however deep. -/
def references : Value P E → List String
  | .element e => (w.object.element.asIdRef e).toList
  | .array items => itemReferences items
  | .object entries => entryReferences entries
  | _ => []

def itemReferences : List (Value P E) → List String
  | [] => []
  | v :: items => references v ++ itemReferences items

def entryReferences : List (Key P × Value P E) → List String
  | [] => []
  | (k, v) :: entries => (w.keyReference k).toList ++ references v ++ entryReferences entries

end

/-- The id in the place of a reference. -/
def setId {T : Type} (o : JmapObjectId A T) (t : T) : T :=
  (((o.asIdRef t).bind w.createdIds).bind (o.trySetId t)).getD t

def replacedKey : Key P → Key P
  | .property p => .property (w.setId w.object.property p)
  | .text s => .text (if w.evalStrings then w.evalText s else s)

mutual

/-- Every reference to an object of an earlier call replaced by its id, however deep. -/
def replaced : Value P E → Value P E
  | .element e => .element (w.setId w.object.element e)
  | .array items => .array (replacedItems items)
  | .object entries => .object (replacedEntries entries)
  | v => v

def replacedItems : List (Value P E) → List (Value P E)
  | [] => []
  | v :: items => replaced v :: replacedItems items

def replacedEntries : List (Key P × Value P E) → List (Key P × Value P E)
  | [] => []
  | (k, v) :: entries => (w.replacedKey k, replaced v) :: replacedEntries entries

end

/-- Texts that are kept when no earlier call made an object of this name. -/
def missedKey : Key P → List String
  | .property _ => []
  | .text s => ((w.keyReference (.text s)).filter fun idRef => (w.createdIds idRef).isNone).toList

mutual

/-- The references below the depth of the walk, and the keys that it keeps. -/
def missed (depth : ℕ) : Value P E → List String
  | .array items => if depth < w.maxDepth then missedItems (depth + 1) items else w.itemReferences items
  | .object entries => if depth < w.maxDepth then missedEntries (depth + 1) entries else w.entryReferences entries
  | _ => []

def missedItems (depth : ℕ) : List (Value P E) → List String
  | [] => []
  | v :: items => missed depth v ++ missedItems depth items

def missedEntries (depth : ℕ) : List (Key P × Value P E) → List String
  | [] => []
  | (k, v) :: entries => w.missedKey k ++ missed depth v ++ missedEntries depth entries

end

/-! ## What the walk leaves -/

variable {w}

theorem setId_of_none {T : Type} {o : JmapObjectId A T} {t : T} (h : o.asIdRef t = none) : w.setId o t = t := by
  unfold setId
  rw [h]
  rfl

theorem setId_of_eq {T : Type} {o : JmapObjectId A T} {t t' : T} {idRef : String} {id : A}
    (href : o.asIdRef t = some idRef) (hid : w.createdIds idRef = some id) (hset : o.trySetId t id = some t') :
    w.setId o t = t' := by
  unfold setId
  rw [href, bind_some, hid, bind_some, hset]
  rfl

theorem stripHash_evalText {s idRef : String} (h : stripHash (w.evalText s) = some idRef) :
    stripHash s = some idRef ∧ w.createdIds idRef = none ∧ w.evalText s = s := by
  unfold evalText at h ⊢
  cases hs : stripHash s with
  | none =>
    rw [hs] at h
    rw [hs] at h
    cases h
  | some k =>
    rw [hs] at h
    dsimp only at h ⊢
    cases hk : w.createdIds k with
    | some id =>
      rw [hk] at h
      rw [w.object.stripHash_idText] at h
      cases h
    | none =>
      rw [hk] at h
      rw [hs] at h
      cases h
      exact ⟨rfl, hk, rfl⟩

theorem evalText_of_missed {s idRef : String} (h : stripHash s = some idRef) (hnone : w.createdIds idRef = none) :
    w.evalText s = s := by
  unfold evalText
  rw [h]
  dsimp only
  rw [hnone]

theorem evalText_of_none {s : String} (h : stripHash s = none) : w.evalText s = s := by
  unfold evalText
  rw [h]

theorem mem_missedKey_text {s idRef : String} :
    idRef ∈ w.missedKey (.text s) ↔
      w.evalStrings = true ∧ stripHash s = some idRef ∧ w.createdIds idRef = none := by
  show idRef ∈ ((w.keyReference (.text s)).filter fun idRef => (w.createdIds idRef).isNone).toList ↔ _
  rw [keyReference, mem_toList, filter_eq_some_iff, isNone_iff_eq_none]
  by_cases hs : w.evalStrings = true
  · rw [if_pos hs, and_iff_right hs]
  · rw [if_neg hs, eq_false hs]
    rw [false_and]
    exact iff_of_false (fun h => nomatch h.1) id

theorem replacedKey_of_none {k : Key P} (h : w.keyReference k = none) : w.replacedKey k = k := by
  cases k with
  | property p => exact congrArg Key.property (setId_of_none h)
  | text s =>
    rw [keyReference] at h
    rw [replacedKey]
    split_ifs at h ⊢ with hs
    · rw [evalText_of_none h]
    · rfl

mutual

theorem replaced_of_references : ∀ v : Value P E, w.references v = [] → w.replaced v = v
  | .null, _ | .bool _, _ | .number _, _ | .str _, _ => rfl
  | .element _, h => congrArg Value.element (setId_of_none (toList_eq_nil_iff.mp h))
  | .array items, h => congrArg Value.array (replacedItems_of_references items h)
  | .object entries, h => congrArg Value.object (replacedEntries_of_references entries h)

theorem replacedItems_of_references : ∀ items : List (Value P E),
    w.itemReferences items = [] → w.replacedItems items = items
  | [], _ => rfl
  | v :: items, h => by
    obtain ⟨hv, hitems⟩ := append_eq_nil_iff.mp h
    show w.replaced v :: w.replacedItems items = v :: items
    rw [replaced_of_references v hv, replacedItems_of_references items hitems]

theorem replacedEntries_of_references : ∀ entries : List (Key P × Value P E),
    w.entryReferences entries = [] → w.replacedEntries entries = entries
  | [], _ => rfl
  | (k, v) :: entries, h => by
    obtain ⟨hkv, hentries⟩ := append_eq_nil_iff.mp h
    obtain ⟨hk, hv⟩ := append_eq_nil_iff.mp hkv
    show (w.replacedKey k, w.replaced v) :: w.replacedEntries entries = (k, v) :: entries
    rw [replacedKey_of_none (toList_eq_nil_iff.mp hk), replaced_of_references v hv,
      replacedEntries_of_references entries hentries]

end

/-- Nothing is taken from the graph, and only the object of the walk is added. -/
structure Grows (child : Option String) (graph graph' : Dependencies) : Prop where
  keeps : ∀ id idRef, idRef ∈ dependsOn graph id → idRef ∈ dependsOn graph' id
  adds : ∀ id, id ∈ graph'.keys → id ∈ graph.keys ∨ child = some id

theorem Grows.refl (child : Option String) (graph : Dependencies) : Grows child graph graph :=
  ⟨fun _ _ h => h, fun _ => Or.inl⟩

theorem Grows.trans {child : Option String} {g₁ g₂ g₃ : Dependencies} (h : Grows child g₁ g₂)
    (h' : Grows child g₂ g₃) : Grows child g₁ g₃ :=
  ⟨fun id idRef hr => h'.keeps id idRef (h.keeps id idRef hr),
    fun id hid => (h'.adds id hid).elim (h.adds id) Or.inr⟩

/-- A part of a value after the walk: the references `left` in it are known to the graph, but for those it
`missed`, all of which are left; and `Done` if it missed none. -/
structure Evaluated (w : Walk A P E) (child : Option String) (graph graph' : Dependencies) (left missed : List String)
    (Done : Prop) : Prop where
  grows : Grows child graph graph'
  known : ∀ idRef ∈ left, idRef ∈ missed ∨
    w.createdIds idRef = none ∧ ∃ id, child = some id ∧ idRef ∈ dependsOn graph' id
  kept : ∀ idRef ∈ missed, idRef ∈ left
  done : missed = [] → Done

theorem Evaluated.nothing (child : Option String) (graph : Dependencies) {Done : Prop} (h : Done) :
    Evaluated w child graph graph [] [] Done :=
  ⟨.refl child graph, nofun, nofun, fun _ => h⟩

theorem Evaluated.unseen (child : Option String) (graph : Dependencies) {left : List String} {Done : Prop}
    (h : left = [] → Done) : Evaluated w child graph graph left left Done :=
  ⟨.refl child graph, fun _ => Or.inl, fun _ hr => hr, h⟩

theorem Evaluated.mono {child : Option String} {g g' : Dependencies} {l m : List String} {D D' : Prop}
    (h : Evaluated w child g g' l m D) (hD : D → D') : Evaluated w child g g' l m D' :=
  { h with done := fun hm => hD (h.done hm) }

theorem Evaluated.append {child : Option String} {g₁ g₂ g₃ : Dependencies} {l₁ l₂ m₁ m₂ : List String} {D₁ D₂ : Prop}
    (h₁ : Evaluated w child g₁ g₂ l₁ m₁ D₁) (h₂ : Evaluated w child g₂ g₃ l₂ m₂ D₂) :
    Evaluated w child g₁ g₃ (l₁ ++ l₂) (m₁ ++ m₂) (D₁ ∧ D₂) where
  grows := h₁.grows.trans h₂.grows
  known idRef hr := by
    rcases mem_append.mp hr with hr | hr
    · rcases h₁.known idRef hr with hm | ⟨hnone, id, hchild, hdep⟩
      · exact Or.inl (mem_append_left m₂ hm)
      · exact Or.inr ⟨hnone, id, hchild, h₂.grows.keeps id idRef hdep⟩
    · exact (h₂.known idRef hr).imp_left (mem_append_right m₁)
  kept idRef hm := by
    rcases mem_append.mp hm with hm | hm
    · exact mem_append_left l₂ (h₁.kept idRef hm)
    · exact mem_append_right l₁ (h₂.kept idRef hm)
  done hm := by
    obtain ⟨hm₁, hm₂⟩ := append_eq_nil_iff.mp hm
    exact ⟨h₁.done hm₁, h₂.done hm₂⟩

theorem grows_alter (graph : Dependencies) (childId idRef : String) :
    Grows (some childId) graph (graph.alter childId (· ++ [idRef])) ∧
      idRef ∈ dependsOn (graph.alter childId (· ++ [idRef])) childId := by
  have hself : idRef ∈ dependsOn (graph.alter childId (· ++ [idRef])) childId := by
    rw [dependsOn, VecMap.get_alter, if_pos rfl]
    exact mem_append_right _ (mem_singleton_self idRef)
  refine ⟨⟨?_, ?_⟩, hself⟩
  · intro id r hr
    rw [dependsOn, VecMap.get_alter]
    split_ifs with hid
    · subst hid
      exact mem_append_left _ hr
    · exact hr
  · intro id hid
    exact (VecMap.mem_keys_alter.mp hid).symm.imp_right fun h => congrArg some h.symm

theorem evalElement_spec (child : Option String) (graph : Dependencies) (e : E) :
    Post (fun x => Evaluated w child graph x.2 (w.object.element.asIdRef x.1).toList []
      (x.1 = w.setId w.object.element e)) (fun _ => True) (w.evalElement child graph e) := by
  unfold evalElement
  cases he : w.object.element.asIdRef e with
  | none =>
    rw [post_ok, he, setId_of_none he]
    exact .nothing child graph rfl
  | some idRef =>
    dsimp only
    cases hid : w.createdIds idRef with
    | some id =>
      dsimp only
      cases hset : w.object.element.trySetId e id with
      | none => trivial
      | some e' =>
        rw [post_ok, w.object.element.asIdRef_of_trySetId hset, setId_of_eq he hid hset]
        exact .nothing child graph rfl
    | none =>
      cases child with
      | none => trivial
      | some childId =>
        obtain ⟨hgrows, hdep⟩ := grows_alter graph childId idRef
        rw [post_ok, he]
        refine ⟨hgrows, ?_, nofun, ?_⟩
        · intro r hr
          obtain rfl := mem_singleton.mp hr
          exact Or.inr ⟨hid, childId, rfl, hdep⟩
        · intro _
          unfold setId
          rw [he, bind_some, hid]
          rfl

theorem evalProperty_spec (p : P) :
    Post (fun p' => w.object.property.asIdRef p' = none ∧ p' = w.setId w.object.property p) (fun _ => True)
      (w.evalProperty p) := by
  unfold evalProperty
  cases hp : w.object.property.asIdRef p with
  | none => exact ⟨hp, (setId_of_none hp).symm⟩
  | some idRef =>
    dsimp only
    cases hid : w.createdIds idRef with
    | none => trivial
    | some id =>
      dsimp only
      cases hset : w.object.property.trySetId p id with
      | none => trivial
      | some p' => exact ⟨w.object.property.asIdRef_of_trySetId hset, (setId_of_eq hp hid hset).symm⟩

theorem evalKey_spec (child : Option String) (graph : Dependencies) (k : Key P) :
    Post (fun k' => Evaluated w child graph graph (w.keyReference k').toList (w.missedKey k) (k' = w.replacedKey k))
      (fun _ => True) (w.evalKey k) := by
  cases k with
  | property p =>
    refine (evalProperty_spec p).bind ?_
    rintro p' ⟨hp, rfl⟩
    rw [post_ok, show w.keyReference (.property _) = none from hp]
    exact .nothing child graph rfl
  | text s =>
    refine ⟨.refl child graph, ?_, ?_, fun _ => rfl⟩
    · intro r hr
      rw [keyReference, mem_toList] at hr
      refine Or.inl (mem_missedKey_text.2 ?_)
      split_ifs at hr with hs
      obtain ⟨hstrip, hnone, -⟩ := stripHash_evalText hr
      exact ⟨hs, hstrip, hnone⟩
    · intro r hr
      obtain ⟨hs, hstrip, hnone⟩ := mem_missedKey_text.1 hr
      rw [keyReference, if_pos hs, if_pos hs, evalText_of_missed hstrip hnone, hstrip]
      exact mem_singleton_self r

mutual

theorem evalObjectReferences_spec (child : Option String) (graph : Dependencies) (depth : ℕ) : ∀ v : Value P E,
    Post (fun x => Evaluated w child graph x.2 (w.references x.1) (w.missed depth v) (x.1 = w.replaced v))
      (fun _ => True) (w.evalObjectReferences child graph depth v)
  | .null | .bool _ | .number _ | .str _ => .nothing child graph rfl
  | .element e => by
    refine (evalElement_spec child graph e).bind ?_
    rintro ⟨e', graph'⟩ h
    exact h.mono (congrArg Value.element)
  | .array items => by
    unfold evalObjectReferences missed
    split_ifs with hd
    · refine (evalItems_spec child graph (depth + 1) items).bind ?_
      rintro ⟨items', graph'⟩ h
      exact h.mono (congrArg Value.array)
    · exact .unseen child graph fun h => congrArg Value.array (replacedItems_of_references items h).symm
  | .object entries => by
    unfold evalObjectReferences missed
    split_ifs with hd
    · refine (evalEntries_spec child graph (depth + 1) entries).bind ?_
      rintro ⟨entries', graph'⟩ h
      exact h.mono (congrArg Value.object)
    · exact .unseen child graph fun h => congrArg Value.object (replacedEntries_of_references entries h).symm

theorem evalItems_spec (child : Option String) (graph : Dependencies) (depth : ℕ) : ∀ items : List (Value P E),
    Post (fun x => Evaluated w child graph x.2 (w.itemReferences x.1) (w.missedItems depth items)
      (x.1 = w.replacedItems items)) (fun _ => True) (w.evalItems child graph depth items)
  | [] => .nothing child graph rfl
  | v :: items => by
    refine (evalObjectReferences_spec child graph depth v).bind ?_
    rintro ⟨v', graph'⟩ hv
    refine (evalItems_spec child graph' depth items).bind ?_
    rintro ⟨items', graph''⟩ hitems
    exact (hv.append hitems).mono fun h => congrArg₂ List.cons h.1 h.2

theorem evalEntries_spec (child : Option String) (graph : Dependencies) (depth : ℕ) :
    ∀ entries : List (Key P × Value P E),
    Post (fun x => Evaluated w child graph x.2 (w.entryReferences x.1) (w.missedEntries depth entries)
      (x.1 = w.replacedEntries entries)) (fun _ => True) (w.evalEntries child graph depth entries)
  | [] => .nothing child graph rfl
  | (k, v) :: entries => by
    refine (evalKey_spec child graph k).bind ?_
    intro k' hk
    refine (evalObjectReferences_spec child graph depth v).bind ?_
    rintro ⟨v', graph'⟩ hv
    refine (evalEntries_spec child graph' depth entries).bind ?_
    rintro ⟨entries', graph''⟩ hentries
    exact ((hk.append hv).append hentries).mono fun h => congrArg₂ List.cons (Prod.ext h.1.1 h.1.2) h.2

end

end Walk
end MailServer.JmapProto.References
