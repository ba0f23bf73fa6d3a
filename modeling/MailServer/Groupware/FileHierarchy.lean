import MailServer.Groupware.Cache
import MailServer.Utils.Topological

/-!
# The paths of files (`groupware/src/cache/file.rs`)

* `buildNestedHierarchy`: names are put behind those of the parents, in topological order.
* `placed_spec`: the paths and the numbers.  `buildNestedHierarchy_eq_none`: a panic.
-/

namespace MailServer.Groupware

open MailServer.Common MailServer.Utils TopologicalSort List

/-- The name and the parent of a file node. -/
def fileOf (r : DavResource) : Option (String × Option ℕ) :=
  match r.data with
  | .file name _ parentId _ => some (name, parentId)
  | _ => none

/-- From parents to children; zero is above the top. -/
def edges (resources : List DavResource) : List (ℕ × ℕ) :=
  resources.filterMap fun r => (fileOf r).map fun f => ((f.2.map (· + 1)).getD 0, r.documentId + 1)

def fileNames (resources : List DavResource) : HashMap ℕ DavPath :=
  .ofList (resources.zipIdx.filterMap fun e => (fileOf e.1).map fun f => (e.1.documentId, ⟨f.1, f.2, 0, e.2⟩)) compare

/-- Behind its parent, if that is known. -/
def placedAt (names : HashMap ℕ DavPath) (folder : DavPath) (seq : ℕ) : DavPath :=
  { folder with
    path := ((folder.parentId.bind fun id => names[id]?).map fun p => p.path ++ "/" ++ folder.path).getD folder.path
    hierarchySeq := seq }

/-- A node and its number; `none` is the panic for one that is no file. -/
def place (names : HashMap ℕ DavPath) (e : ℕ × ℕ) : Option (HashMap ℕ DavPath) :=
  if e.1 = 0 then some names
  else names[e.1 - 1]?.map fun folder => names.insert (e.1 - 1) (placedAt names folder e.2)

def placed (resources : List DavResource) : Option (HashMap ℕ DavPath) :=
  (ofEdges (edges resources)).toList.zipIdx.foldlM place (fileNames resources)

/-- `build_nested_hierarchy` -/
def buildNestedHierarchy (c : DavResources) : Option DavResources :=
  (placed c.resources).map fun names => { c with paths := names.values.foldl insertPath [] }

/-! ## The files -/

variable {resources : List DavResource} {id : ℕ} {folder : DavPath}

theorem mem_edges {e : ℕ × ℕ} : e ∈ edges resources ↔ ∃ r ∈ resources, ∃ name parentId,
    fileOf r = some (name, parentId) ∧ e = ((parentId.map (· + 1)).getD 0, r.documentId + 1) := by
  simp [edges, eq_comm]

theorem exists_of_names (h : (fileNames resources)[id]? = some folder) :
    ∃ r ∈ resources, fileOf r = some (folder.path, folder.parentId) ∧ r.documentId = id := by
  obtain ⟨⟨r, i⟩, hr, hf⟩ := mem_filterMap.mp (HashMap.mem_of_getElem?_ofList h)
  obtain ⟨f, hfile, heq⟩ := Option.map_eq_some_iff.mp hf
  obtain ⟨rfl, rfl⟩ := Prod.mk.inj heq
  exact ⟨r, (mem_zipIdx' hr).2 ▸ getElem_mem _, hfile, rfl⟩

theorem isSome_names {r : DavResource} (hr : r ∈ resources) (hfile : (fileOf r).isSome = true) :
    ((fileNames resources)[r.documentId]?).isSome = true := by
  obtain ⟨i, hi, rfl⟩ := getElem_of_mem hr
  obtain ⟨f, hf⟩ := Option.isSome_iff_exists.mp hfile
  rw [Std.TreeMap.isSome_getElem?_eq_contains, fileNames, Std.TreeMap.contains_ofList]
  simp only [contains_iff_mem, mem_map, mem_filterMap]
  exact ⟨_, ⟨(resources[i], i), by simp [mem_zipIdx_iff_getElem?], by rw [hf]; rfl⟩, rfl⟩

/-! ## In topological order -/

/-- The file has its path and its number, which come after those of its parent. -/
def Placed (m : HashMap ℕ DavPath) (id : ℕ) (folder : DavPath) (seq : ℕ) : Prop :=
  m[id]? = some (placedAt m folder seq) ∧ ∀ p ∈ folder.parentId, ∃ parent, m[p]? = some parent ∧ parent.hierarchySeq < seq

/-- After some nodes: the others are as they were. -/
structure Placing (resources : List DavResource) (done : List ℕ) (n : ℕ) (m : HashMap ℕ DavPath) : Prop where
  same : ∀ id, id + 1 ∉ done → m[id]? = (fileNames resources)[id]?
  placed : ∀ id, id + 1 ∈ done → ∃ folder, (fileNames resources)[id]? = some folder ∧
    (∀ p ∈ folder.parentId, p + 1 ∈ done) ∧ ∃ seq < n, Placed m id folder seq

variable {m m' : HashMap ℕ DavPath} {done : List ℕ} {n node seq : ℕ}

theorem placedAt_congr (h : ∀ p ∈ folder.parentId, m'[p]? = m[p]?) : placedAt m' folder seq = placedAt m folder seq := by
  unfold placedAt
  cases hparent : folder.parentId with
  | none => rfl
  | some p => simp [h p hparent]

theorem Placed.congr (h : Placed m id folder seq) (hid : m'[id]? = m[id]?) (hp : ∀ p ∈ folder.parentId, m'[p]? = m[p]?) :
    Placed m' id folder seq := by
  refine ⟨by rw [hid, h.1, placedAt_congr hp], fun p hparent => ?_⟩
  rw [hp p hparent]
  exact h.2 p hparent

theorem Placing.step (h : Placing resources done n m) (hnot : node ∉ done)
    (hdone : ∀ e ∈ edges resources, e.2 = node → e.1 ∈ done) (hplace : place m (node, n) = some m') :
    Placing resources (node :: done) (n + 1) m' := by
  have hold (hsame : ∀ k, k + 1 ∈ done → m'[k]? = m[k]?) : ∀ id, id + 1 ∈ done → ∃ folder,
      (fileNames resources)[id]? = some folder ∧ (∀ p ∈ folder.parentId, p + 1 ∈ node :: done) ∧
        ∃ seq < n + 1, Placed m' id folder seq := by
    intro id hid
    obtain ⟨folder, hfolder, hparent, seq, hseq, hplaced⟩ := h.placed id hid
    exact ⟨folder, hfolder, fun p hp => mem_cons_of_mem _ (hparent p hp), seq, by omega,
      hplaced.congr (hsame id hid) fun p hp => hsame p (hparent p hp)⟩
  cases node with
  | zero =>
    obtain rfl : m = m' := Option.some.inj hplace
    exact ⟨fun id hid => h.same id (mt (mem_cons_of_mem _) hid), fun id hid => hold (fun _ _ => rfl) id (by simpa using hid)⟩
  | succ v =>
    obtain ⟨folder, hfolder, hinsert⟩ := Option.map_eq_some_iff.mp hplace
    have hget (k : ℕ) : m'[k]? = if v = k then some (placedAt m folder n) else m[k]? := by
      rw [← hinsert]
      exact HashMap.getElem?_insert
    have hsame (k : ℕ) (hk : k + 1 ∈ done) : m'[k]? = m[k]? := by
      rw [hget, if_neg]
      rintro rfl
      exact hnot hk
    have hname : (fileNames resources)[v]? = some folder := (h.same v hnot).symm.trans hfolder
    refine ⟨fun id hid => ?_, fun id hid => ?_⟩
    · rw [mem_cons, not_or] at hid
      rw [hget, if_neg (by omega), h.same id hid.2]
    · rcases mem_cons.mp hid with hid | hid
      · obtain rfl : id = v := by omega
        have hparent : ∀ p ∈ folder.parentId, p + 1 ∈ done := by
          intro p hp
          obtain ⟨r, hr, hfile, rfl⟩ := exists_of_names hname
          exact hdone (p + 1, r.documentId + 1) (mem_edges.mpr ⟨r, hr, _, _, hfile, by rw [hp]; rfl⟩) rfl
        refine ⟨folder, hname, fun p hp => mem_cons_of_mem _ (hparent p hp), n, by omega, ?_, fun p hp => ?_⟩
        · rw [hget, if_pos rfl, placedAt_congr fun p hp => hsame p (hparent p hp)]
        · obtain ⟨_, -, -, seq, hseq, hplaced, -⟩ := h.placed p (hparent p hp)
          exact ⟨_, (hsame p (hparent p hp)).trans hplaced, hseq⟩
      · exact hold hsame id hid

theorem Placing.run {l : List ℕ} (h : Placing resources done n m) (hl : InOrder (edges resources) done l)
    (hrun : (l.zipIdx n).foldlM place m = some m') : ∃ n', Placing resources (l.reverse ++ done) n' m' := by
  induction l generalizing done n m with
  | nil =>
    obtain rfl : m = m' := Option.some.inj hrun
    exact ⟨n, h⟩
  | cons node l ih =>
    obtain ⟨hnot, hdone, hl⟩ := hl
    obtain ⟨m₁, hplace, hrun⟩ := Option.bind_eq_some_iff.mp hrun
    simpa using ih (h.step hnot hdone hplace) hl hrun

/-- **The paths of files**: a file has that of its parent before its name, unless a cycle leads to it. -/
theorem placed_spec (h : placed resources = some m) (hname : (fileNames resources)[id]? = some folder) :
    (Acc (fun u v => (u, v) ∈ edges resources) (id + 1) → ∃ seq, Placed m id folder seq) ∧
      (¬ Acc (fun u v => (u, v) ∈ edges resources) (id + 1) → m[id]? = some folder) := by
  have horder := inOrder_toList (edges resources)
  obtain ⟨n, hplacing⟩ := Placing.run ⟨fun _ _ => rfl, by simp⟩ horder h
  simp only [append_nil] at hplacing
  constructor
  · intro hacc
    obtain ⟨r, hr, hfile, rfl⟩ := exists_of_names hname
    have hmem := mem_toList_of_acc (mem_edges.mpr ⟨r, hr, _, _, hfile, rfl⟩) (.inr rfl) hacc
    obtain ⟨_, hsame, -, seq, -, hplaced⟩ := hplacing.placed _ (mem_reverse.mpr hmem)
    obtain rfl := Option.some.inj (hname.symm.trans hsame)
    exact ⟨seq, hplaced⟩
  · intro hcycle
    rw [hplacing.same id fun hmem => hcycle (InOrder.acc (by simp) horder _ (mem_reverse.mp hmem)), hname]

theorem placed_child : ∃ m, placed [⟨0, .file "a" none none []⟩, ⟨1, .file "b" none (some 0) []⟩] = some m ∧
    ∃ seq, Placed m 1 ⟨"b", some 0, 0, 1⟩ seq :=
  (Option.isSome_iff_exists.mp (by decide)).imp fun _ hm =>
    ⟨hm, (placed_spec hm rfl).1 (InOrder.acc (by simp) (inOrder_toList _) 2 (by decide))⟩

/-- **A file whose parent is no file** makes the server panic, whatever else is stored. -/
theorem buildNestedHierarchy_eq_none {c : DavResources} {r : DavResource} {name : String} {p : ℕ} (hr : r ∈ c.resources)
    (hfile : fileOf r = some (name, some p)) (hparent : (fileNames c.resources)[p]? = none) : buildNestedHierarchy c = none := by
  rw [buildNestedHierarchy, Option.map_eq_none_iff]
  by_contra hsome
  obtain ⟨m, hm⟩ := Option.ne_none_iff_exists'.mp hsome
  obtain ⟨n, hplacing⟩ := Placing.run ⟨fun _ _ => rfl, by simp⟩ (inOrder_toList (edges c.resources)) hm
  have hroot : Acc (fun u v => (u, v) ∈ edges c.resources) (p + 1) := by
    refine ⟨_, fun u hu => ?_⟩
    obtain ⟨r', hr', _, _, hfile', heq⟩ := mem_edges.mp hu
    obtain rfl : p = r'.documentId := by simpa using congrArg Prod.snd heq
    simpa [hparent] using isSome_names hr' (by rw [hfile']; rfl)
  have hmem := mem_toList_of_acc (mem_edges.mpr ⟨r, hr, _, _, hfile, rfl⟩) (.inl rfl) hroot
  obtain ⟨folder, hfolder, -⟩ := hplacing.placed p (mem_append_left _ (mem_reverse.mpr hmem))
  simp [hparent] at hfolder

theorem buildNestedHierarchy_orphan : buildNestedHierarchy
    ⟨"", [], [⟨0, .file "a" none none []⟩, ⟨1, .file "b" none (some 7) []⟩], by decide⟩ = none :=
  buildNestedHierarchy_eq_none (mem_cons_of_mem _ mem_cons_self) rfl rfl

end MailServer.Groupware
