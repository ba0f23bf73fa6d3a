import MailServer.Lib.Except
import Mathlib.Data.List.Basic

/-!
# Templates (`utils/src/template.rs`)

* `Template.parse`: a text as a flat list of items, a block with the place behind it.  The capacity that the source
  reserves is left out.
* `Template.eval`: the text for an assignment of the variables, by jumps in that list.
* `Blocks`: the structure that the tags of a text describe, `Blocks.Spelled`.
* `Blocks.render`: what it should give.
* `parse_blocks`: the items of an accepted text are those of its structure.
-/

namespace MailServer.Utils

open List

open MailServer.Lib (bind_eq_ok)

inductive TemplateItem (T : Type*) where
  | static (text : List Char)
  | var (name : T) (escape : Bool)
  | ifBlock (name : T) (blockEnd : ℕ)
  | forEach (name : T) (blockEnd : ℕ)
  deriving DecidableEq

structure Template (T : Type*) where
  items : List (TemplateItem T)
  deriving DecidableEq

inductive Variable (T V : Type*) where
  | single (value : V)
  | block (entries : List (T → Option V))

abbrev Variables (T V : Type*) := T → Option (Variable T V)

namespace Template

/-- `T::from_str`, and `str::trim`. -/
structure Names (T : Type*) where
  fromStr : List Char → Option T
  trim : List Char → List Char

variable {T V : Type*}

/-! ## Parsing -/

/-- `str::split_once` at two characters of a kind. -/
def splitOnce (ch : Char) : List Char → Option (List Char × List Char)
  | a :: b :: text =>
    if a = ch ∧ b = ch then some ([], text) else (splitOnce ch (b :: text)).map fun e => (a :: e.1, e.2)
  | _ => none

theorem length_splitOnce {ch : Char} {text start rest : List Char} (h : splitOnce ch text = some (start, rest)) :
    rest.length < text.length := by
  induction text generalizing start with
  | nil => cases h
  | cons a text ih =>
    match text with
    | [] => cases h
    | b :: text =>
      rw [splitOnce] at h
      split_ifs at h
      · obtain ⟨-, rfl⟩ := Prod.mk.inj (Option.some.inj h)
        exact Nat.lt_succ_of_lt (Nat.lt_succ_self _)
      · rw [Option.map_eq_some_iff] at h
        obtain ⟨e, he, heq⟩ := h
        obtain ⟨-, rfl⟩ := Prod.mk.inj heq
        exact Nat.lt_trans (ih he) (Nat.lt_succ_self _)

def stripPrefix (p text : List Char) : Option (List Char) :=
  if p.isPrefixOf text then some (text.drop p.length) else none

/-- What stands between braces. -/
inductive Tag (T : Type*) where
  | static (text : List Char)
  | var (name : T) (escape : Bool)
  | opening (isEach : Bool) (text : List Char) (name : T)
  | closing (isEach : Bool) (text : List Char)
  deriving DecidableEq

/-- The kind of a block, and its variable. -/
def blockName (text : List Char) : Option (Bool × List Char) :=
  match stripPrefix "each ".toList text with
  | some each => some (true, each)
  | none => (stripPrefix "if ".toList text).map fun ifCond => (false, ifCond)

def readTag (n : Names T) (text : List Char) : Except String (Tag T) :=
  match stripPrefix ['#'] text with
  | some text =>
    match blockName (n.trim text) with
    | none => .error s!"Invalid block start: {String.ofList (n.trim text)}"
    | some (isEach, varName) =>
      match n.fromStr varName with
      | none => .error s!"Invalid variable: {String.ofList varName}"
      | some name => .ok (.opening isEach varName name)
  | none =>
    match stripPrefix ['/'] text with
    | some text =>
      match blockName (n.trim text) with
      | none => .error s!"Invalid block end: {String.ofList (n.trim text)}"
      | some (isEach, varName) => .ok (.closing isEach varName)
    | none =>
      let varName := (stripPrefix ['!'] text).getD text
      match n.fromStr varName with
      | none => .error s!"Invalid variable: {String.ofList varName}"
      | some name => .ok (.var name (stripPrefix ['!'] text).isNone)

/-- The items so far, and the open blocks with their places, the innermost first. -/
structure ParseState (T : Type*) where
  items : List (TemplateItem T)
  blockStack : List (List Char × ℕ)

def openItem (isEach : Bool) (name : T) (blockEnd : ℕ) : TemplateItem T :=
  if isEach then .forEach name blockEnd else .ifBlock name blockEnd

/-- The end of an open block, unless it is of the other kind. -/
def setBlockEnd (isEach : Bool) (blockEnd : ℕ) : TemplateItem T → Option (TemplateItem T)
  | .ifBlock name _ => if isEach then none else some (.ifBlock name blockEnd)
  | .forEach name _ => if isEach then some (.forEach name blockEnd) else none
  | _ => none

def ParseState.addTag (s : ParseState T) : Tag T → Except String (ParseState T)
  | .static text => .ok { s with items := s.items ++ [.static text] }
  | .var name escape => .ok { s with items := s.items ++ [.var name escape] }
  | .opening isEach text name =>
    .ok ⟨s.items ++ [openItem isEach name 0], (text, s.items.length) :: s.blockStack⟩
  | .closing isEach text =>
    match s.blockStack with
    -- a closing tag without an open block says nothing
    | [] => .ok s
    | (expected, pos) :: blockStack =>
      if expected ≠ text then
        .error s!"Block end does not match start: expected {String.ofList expected}, got {String.ofList text}"
      else
        match s.items[pos]?.bind (setBlockEnd isEach s.items.length) with
        | some item => .ok ⟨s.items.set pos item, blockStack⟩
        | none => .error s!"Block end does not match start type for {String.ofList text}"

/-- Text between tags, if there is any. -/
def static (text : List Char) : List (Tag T) :=
  if text = [] then [] else [.static text]

def parseFrom (n : Names T) (template : List Char) (s : ParseState T) : Except String (ParseState T) :=
  match _hstart : splitOnce '\x7b' template with
  | none => (static template).foldlM ParseState.addTag s
  | some (start, rest) =>
    match _hrest : splitOnce '\x7d' rest with
    | none => .error "Unmatched \x7b\x7b"
    | some (text, rest) => do
      let tag ← readTag n (n.trim text)
      let s ← (static start ++ [tag]).foldlM ParseState.addTag s
      parseFrom n rest s
termination_by template.length
decreasing_by exact Nat.lt_trans (length_splitOnce _hrest) (length_splitOnce _hstart)

def parse (n : Names T) (template : List Char) : Except String (Template T) := do
  let s ← parseFrom n template ⟨[], []⟩
  match s.blockStack with
  | [] => .ok ⟨s.items⟩
  | (name, _) :: _ => .error ("Unmatched \x7b: " ++ String.ofList name)

/-! ## Evaluation -/

def htmlEscape (text : List Char) : List Char :=
  text.flatMap fun c =>
    if c = '&' then "&amp;".toList
    else if c = '<' then "&lt;".toList
    else if c = '>' then "&gt;".toList
    else if c = '"' then "&quot;".toList
    else if c = '\'' then "&#39;".toList
    else [c]

/-- `items[from..to]`, which panics outside the items. -/
def slice (items : List (TemplateItem T)) (start stop : ℕ) : Option (List (TemplateItem T)) :=
  if start ≤ stop ∧ stop ≤ items.length then some ((items.drop start).take (stop - start)) else none

variable (asRef : V → List Char)

def insertValue (escape : Bool) (value : V) : List Char :=
  if escape then htmlEscape (asRef value) else asRef value

/-- What is inserted for a variable: nothing if it has no text. -/
def insertVar (escape : Bool) : Option (Variable T V) → List Char
  | some (.single value) => insertValue asRef escape value
  | _ => []

/-- The loop over the items of an `each` block, for one entry, with so many turns. -/
def evalEntry (items : List (TemplateItem T)) (blockEnd : ℕ) (entry : T → Option V) :
    ℕ → List (TemplateItem T) → List Char → Option (List Char)
  | 0, _, _ => none
  | _ + 1, [], result => some result
  | fuel + 1, .static s :: rest, result => evalEntry items blockEnd entry fuel rest (result ++ s)
  | fuel + 1, .var name escape :: rest, result =>
    evalEntry items blockEnd entry fuel rest (result ++ ((entry name).map (insertValue asRef escape)).getD [])
  | fuel + 1, .ifBlock name startPos :: rest, result =>
    if (entry name).isNone then
      (slice items startPos blockEnd).bind fun rest => evalEntry items blockEnd entry fuel rest result
    else evalEntry items blockEnd entry fuel rest result
  | fuel + 1, .forEach _ _ :: rest, result => evalEntry items blockEnd entry fuel rest result

/-- The loop over the items, from the one at `idx` on. -/
def evalFrom (items : List (TemplateItem T)) (vars : Variables T V) :
    ℕ → ℕ → List (TemplateItem T) → List Char → Option (List Char)
  | 0, _, _, _ => none
  | _ + 1, _, [], result => some result
  | fuel + 1, idx, .static s :: rest, result => evalFrom items vars fuel (idx + 1) rest (result ++ s)
  | fuel + 1, idx, .var name escape :: rest, result =>
    evalFrom items vars fuel (idx + 1) rest (result ++ insertVar asRef escape (vars name))
  | fuel + 1, idx, .ifBlock name blockEnd :: rest, result =>
    if (vars name).isNone then
      (slice items blockEnd items.length).bind fun rest => evalFrom items vars fuel blockEnd rest result
    else evalFrom items vars fuel (idx + 1) rest result
  | fuel + 1, idx, .forEach name blockEnd :: _, result =>
    (match vars name with
      | some (.block entries) =>
        (slice items (idx + 1) blockEnd).bind fun sub =>
          entries.foldlM (fun result entry => evalEntry asRef items blockEnd entry fuel sub result) result
      | _ => some result).bind fun result =>
        (slice items blockEnd items.length).bind fun rest => evalFrom items vars fuel blockEnd rest result

/-- The text, if it takes at most so many turns of a loop and no slice is out of range. -/
def eval (t : Template T) (vars : Variables T V) (fuel : ℕ) : Option (List Char) :=
  evalFrom asRef t.items vars fuel 0 t.items []

end Template

/-! ## The structure of a template -/

/-- Texts, variables and blocks, one after the other. -/
inductive Blocks (T : Type*) where
  | nil
  | static (text : List Char) (rest : Blocks T)
  | var (name : T) (escape : Bool) (rest : Blocks T)
  | block (isEach : Bool) (name : T) (body rest : Blocks T)
  deriving DecidableEq

namespace Blocks

open Template

variable {T V : Type*}

/-- How many items there are. -/
def size : Blocks T → ℕ
  | nil => 0
  | static _ rest => rest.size + 1
  | var _ _ rest => rest.size + 1
  | block _ _ body rest => body.size + rest.size + 1

/-- The items, the first of them at a place of the list. -/
def items : Blocks T → ℕ → List (TemplateItem T)
  | nil, _ => []
  | static text rest, i => .static text :: rest.items (i + 1)
  | var name escape rest, i => .var name escape :: rest.items (i + 1)
  | block isEach name body rest, i =>
    openItem isEach name (i + 1 + body.size) :: (body.items (i + 1) ++ rest.items (i + 1 + body.size))

/-- The tags that describe the structure: a block stands between two tags with one text. -/
inductive Spelled : Blocks T → List (Tag T) → Prop
  | nil : Spelled nil []
  | static {text rest tags} : Spelled rest tags → Spelled (static text rest) (.static text :: tags)
  | var {name escape rest tags} : Spelled rest tags → Spelled (var name escape rest) (.var name escape :: tags)
  | block {isEach name body rest text inner tags} : Spelled body inner → Spelled rest tags →
      Spelled (block isEach name body rest) (.opening isEach text name :: (inner ++ .closing isEach text :: tags))

/-- The variables of an entry have texts only. -/
def entryScope (entry : T → Option V) : Variables T V :=
  fun name => (entry name).map .single

/-- The text of a structure: an `if` block if its variable is defined, an `each` block once for every entry. -/
def render (asRef : V → List Char) : Variables T V → Blocks T → List Char
  | _, nil => []
  | scope, static text rest => text ++ render asRef scope rest
  | scope, var name escape rest => insertVar asRef escape (scope name) ++ render asRef scope rest
  | scope, block false name body rest =>
    (if (scope name).isSome then render asRef scope body else []) ++ render asRef scope rest
  | scope, block true name body rest =>
    (match scope name with
      | some (.block entries) => entries.flatMap fun entry => render asRef (entryScope entry) body
      | _ => []) ++ render asRef scope rest

end Blocks

namespace Template

variable {T : Type*}

/-- The tags of a text. -/
inductive Reads (n : Names T) : List Char → List (Tag T) → Prop
  | done {template} : splitOnce '\x7b' template = none → Reads n template (static template)
  | tag {template start rest text rest' tag tags} : splitOnce '\x7b' template = some (start, rest) →
      splitOnce '\x7d' rest = some (text, rest') → readTag n (n.trim text) = .ok tag → Reads n rest' tags →
      Reads n template (static start ++ [tag] ++ tags)

/-- The tags without the closing ones that have no block to close, so many blocks being open. -/
def dropStrays : ℕ → List (Tag T) → List (Tag T)
  | _, [] => []
  | depth, .opening isEach text name :: tags => .opening isEach text name :: dropStrays (depth + 1) tags
  | 0, .closing _ _ :: tags => dropStrays 0 tags
  | depth + 1, .closing isEach text :: tags => .closing isEach text :: dropStrays depth tags
  | depth, tag :: tags => tag :: dropStrays depth tags

variable {n : Names T} {s s' : ParseState T} {template : List Char}

theorem parseFrom_done (hstart : splitOnce '\x7b' template = none) :
    parseFrom n template s = (static template).foldlM ParseState.addTag s := by
  rw [parseFrom]
  split
  · rfl
  · rename_i heq
    rw [hstart] at heq
    cases heq

theorem parseFrom_unmatched {start rest : List Char} (hstart : splitOnce '\x7b' template = some (start, rest))
    (hrest : splitOnce '\x7d' rest = none) : parseFrom n template s = .error "Unmatched \x7b\x7b" := by
  rw [parseFrom]
  split
  · rename_i heq
    rw [hstart] at heq
    cases heq
  · rename_i heq
    obtain ⟨rfl, rfl⟩ := Prod.mk.inj (Option.some.inj (hstart.symm.trans heq))
    split
    · rfl
    · rename_i heq'
      rw [hrest] at heq'
      cases heq'

theorem parseFrom_tag {start rest text rest' : List Char} (hstart : splitOnce '\x7b' template = some (start, rest))
    (hrest : splitOnce '\x7d' rest = some (text, rest')) : parseFrom n template s = (do
      let tag ← readTag n (n.trim text)
      let s ← (static start ++ [tag]).foldlM ParseState.addTag s
      parseFrom n rest' s) := by
  rw [parseFrom]
  split
  · rename_i heq
    rw [hstart] at heq
    cases heq
  · rename_i heq
    obtain ⟨rfl, rfl⟩ := Prod.mk.inj (Option.some.inj (hstart.symm.trans heq))
    split
    · rename_i heq'
      rw [hrest] at heq'
      cases heq'
    · rename_i heq'
      obtain ⟨rfl, rfl⟩ := Prod.mk.inj (Option.some.inj (hrest.symm.trans heq'))
      rfl

theorem reads_of_parseFrom (h : parseFrom n template s = .ok s') :
    ∃ tags, Reads n template tags ∧ tags.foldlM ParseState.addTag s = .ok s' := by
  induction template, s using parseFrom.induct with
  | case1 template s hstart =>
    rw [parseFrom_done hstart] at h
    exact ⟨static template, .done hstart, h⟩
  | case2 template s start rest hstart hrest =>
    rw [parseFrom_unmatched hstart hrest] at h
    cases h
  | case3 template s start rest hstart text rest' hrest ih =>
    rw [parseFrom_tag hstart hrest] at h
    obtain ⟨tag, htag, h⟩ := bind_eq_ok h
    obtain ⟨s₁, hs₁, h⟩ := bind_eq_ok h
    obtain ⟨tags, hreads, hfold⟩ := ih s₁ h
    refine ⟨static start ++ [tag] ++ tags, .tag hstart hrest htag hreads, ?_⟩
    rw [foldlM_append, hs₁]
    exact hfold

end Template

namespace Blocks

open Template

variable {T : Type*} {a b : Blocks T} {tags tags' : List (Tag T)}

def append : Blocks T → Blocks T → Blocks T
  | nil, b => b
  | static text rest, b => static text (rest.append b)
  | var name escape rest, b => var name escape (rest.append b)
  | block isEach name body rest, b => block isEach name body (rest.append b)

@[simp] theorem length_items (b : Blocks T) (i : ℕ) : (b.items i).length = b.size := by
  induction b generalizing i with
  | nil => rfl
  | static text rest ih => simp [items, size, ih]
  | var name escape rest ih => simp [items, size, ih]
  | block isEach name body rest ihb ihr => simp [items, size, ihb, ihr]

theorem items_append (a b : Blocks T) (i : ℕ) : (a.append b).items i = a.items i ++ b.items (i + a.size) := by
  induction a generalizing i with
  | nil => rfl
  | static text rest ih => simp [append, items, size, ih, Nat.add_assoc, Nat.add_comm]
  | var name escape rest ih => simp [append, items, size, ih, Nat.add_assoc, Nat.add_comm]
  | block isEach name body rest ihb ihr =>
    rw [append, items, items, ihr, cons_append, append_assoc, size]
    congr 4
    omega

theorem Spelled.append (ha : a.Spelled tags) (hb : b.Spelled tags') : (a.append b).Spelled (tags ++ tags') := by
  induction ha with
  | nil => exact hb
  | static _ ih => exact .static ih
  | var _ ih => exact .var ih
  | block hbody _ _ ih =>
    rw [cons_append, append_assoc]
    exact .block hbody ih

end Blocks

namespace Template

/-- A block that is open: what stands before it, and its opening tag. -/
structure Frame (T : Type*) where
  before : Blocks T
  isEach : Bool
  text : List Char
  name : T

namespace Frame

variable {T : Type*}

/-- The items up to the innermost open block. -/
def items : List (Frame T) → List (TemplateItem T)
  | [] => []
  | f :: fs => items fs ++ f.before.items (items fs).length ++ [openItem f.isEach f.name 0]

def stack : List (Frame T) → List (List Char × ℕ)
  | [] => []
  | f :: fs => (f.text, (items fs).length + f.before.size) :: stack fs

inductive Spelled : List (Frame T) → List (Tag T) → Prop
  | nil : Spelled [] []
  | cons {f fs tags inner} : Spelled fs tags → f.before.Spelled inner →
      Spelled (f :: fs) (tags ++ inner ++ [.opening f.isEach f.text f.name])

end Frame

open MailServer.Utils.Template.Frame in
/-- The items are those of the open blocks, and of what stands in the innermost. -/
structure ParseState.Inv {T : Type*} (s : ParseState T) (fs : List (Frame T)) (cur : Blocks T) (tags : List (Tag T)) :
    Prop where
  items_eq : s.items = Frame.items fs ++ cur.items (Frame.items fs).length
  stack_eq : s.blockStack = Frame.stack fs
  spelled : ∃ outer inner, Frame.Spelled fs outer ∧ cur.Spelled inner ∧ tags = outer ++ inner

variable {T : Type*} {s s' : ParseState T} {fs : List (Frame T)} {cur : Blocks T} {kept : List (Tag T)}

theorem ParseState.Inv.push (h : s.Inv fs cur kept) {b : Blocks T} {tag : Tag T} {item : TemplateItem T}
    (hitem : ∀ i, b.items i = [item]) (hspelled : b.Spelled [tag]) :
    ({ s with items := s.items ++ [item] } : ParseState T).Inv fs (cur.append b) (kept ++ [tag]) := by
  obtain ⟨outer, inner, houter, hinner, rfl⟩ := h.spelled
  refine ⟨?_, h.stack_eq, outer, inner ++ [tag], houter, hinner.append hspelled, append_assoc ..⟩
  rw [h.items_eq, Blocks.items_append, hitem, append_assoc]

theorem setBlockEnd_openItem {isEach isEach' : Bool} {name : T} {i j : ℕ} {item : TemplateItem T}
    (h : setBlockEnd isEach j (openItem isEach' name i) = some item) :
    isEach' = isEach ∧ item = openItem isEach' name j := by
  cases isEach <;> cases isEach' <;> simp_all [setBlockEnd, openItem]

/-- **What a tag does:** it adds to the innermost block, opens one or closes it; or it is dropped. -/
theorem ParseState.Inv.addTag (h : s.Inv fs cur kept) {tag : Tag T} (hadd : s.addTag tag = .ok s') :
    ∃ fs' cur' new, s'.Inv fs' cur' (kept ++ new) ∧
      ∀ more, dropStrays fs.length (tag :: more) = new ++ dropStrays fs'.length more := by
  cases tag with
  | static text =>
    obtain rfl := Except.ok.inj hadd
    refine ⟨fs, _, [.static text], h.push (b := .static text .nil) (fun i => rfl) (.static .nil), fun more => ?_⟩
    cases fs <;> rfl
  | var name escape =>
    obtain rfl := Except.ok.inj hadd
    refine ⟨fs, _, [.var name escape], h.push (b := .var name escape .nil) (fun i => rfl) (.var .nil), fun more => ?_⟩
    cases fs <;> rfl
  | opening isEach text name =>
    obtain rfl := Except.ok.inj hadd
    obtain ⟨outer, inner, houter, hinner, rfl⟩ := h.spelled
    refine ⟨⟨cur, isEach, text, name⟩ :: fs, .nil, [.opening isEach text name], ⟨?_, ?_, _, [], .cons houter hinner, .nil, ?_⟩,
      fun more => ?_⟩
    · rw [Blocks.items, append_nil, Frame.items, ← h.items_eq]
    · rw [h.stack_eq, Frame.stack, h.items_eq, length_append, Blocks.length_items]
    · rw [append_nil]
    · cases fs <;> rfl
  | closing isEach text =>
    match fs with
    | [] =>
      have hstack : s.blockStack = [] := h.stack_eq
      rw [ParseState.addTag, hstack] at hadd
      obtain rfl := Except.ok.inj hadd
      exact ⟨[], cur, [], (append_nil kept).symm ▸ h, fun more => rfl⟩
    | f :: fs =>
      have hstack : s.blockStack = (f.text, (Frame.items fs).length + f.before.size) :: Frame.stack fs := h.stack_eq
      have hitems := h.items_eq
      rw [Frame.items] at hitems
      have hpos : (Frame.items fs ++ f.before.items (Frame.items fs).length).length =
          (Frame.items fs).length + f.before.size := by
        rw [length_append, Blocks.length_items]
      rw [ParseState.addTag, hstack] at hadd
      dsimp only at hadd
      split_ifs at hadd with htext
      rw [not_not] at htext
      subst htext
      generalize hX : Frame.items fs ++ f.before.items (Frame.items fs).length = X at hitems hpos
      have hget : s.items[X.length]? = some (openItem f.isEach f.name 0) := by
        rw [hitems]
        simp
      rw [← hpos, hget] at hadd
      split at hadd
      · rename_i item hset
        obtain ⟨rfl, rfl⟩ := setBlockEnd_openItem hset
        obtain rfl := Except.ok.inj hadd
        obtain ⟨outer, inner, houter, hinner, rfl⟩ := h.spelled
        match outer, houter with
        | _, @Frame.Spelled.cons _ _ _ tags before hfs hbefore =>
          refine ⟨fs, f.before.append (.block f.isEach f.name cur .nil), [.closing f.isEach f.text],
            ⟨?_, rfl, tags, before ++ .opening f.isEach f.text f.name :: (inner ++ [.closing f.isEach f.text]), hfs,
              hbefore.append (.block hinner .nil), by simp⟩, fun more => rfl⟩
          have hlen : (Frame.items (f :: fs)).length = X.length + 1 := by
            rw [Frame.items, hX, length_append, length_singleton]
          have hall : s.items.length = (Frame.items (f :: fs)).length + cur.size := by
            rw [h.items_eq, length_append, Blocks.length_items]
          have hset' : s.items.set X.length (openItem f.isEach f.name s.items.length) =
              X ++ openItem f.isEach f.name s.items.length :: cur.items (Frame.items (f :: fs)).length := by
            rw [hlen]
            simp [hitems]
          rw [Blocks.items_append, ← append_assoc, hX, ← hpos, Blocks.items, Blocks.items, append_nil, ← hlen,
            hset', hall]
      · cases hadd

theorem ParseState.Inv.run {tags : List (Tag T)} (h : s.Inv fs cur kept)
    (hrun : tags.foldlM ParseState.addTag s = .ok s') :
    ∃ fs' cur' new, s'.Inv fs' cur' (kept ++ new) ∧
      ∀ more, dropStrays fs.length (tags ++ more) = new ++ dropStrays fs'.length more := by
  induction tags generalizing s fs cur kept with
  | nil =>
    obtain rfl := Except.ok.inj hrun
    exact ⟨fs, cur, [], (append_nil kept).symm ▸ h, fun more => rfl⟩
  | cons tag tags ih =>
    obtain ⟨s₁, hadd, hrun⟩ := bind_eq_ok hrun
    obtain ⟨fs₁, cur₁, new₁, h₁, hdrop₁⟩ := h.addTag hadd
    obtain ⟨fs₂, cur₂, new₂, h₂, hdrop₂⟩ := ih h₁ hrun
    refine ⟨fs₂, cur₂, new₁ ++ new₂, append_assoc kept new₁ new₂ ▸ h₂, fun more => ?_⟩
    rw [cons_append, hdrop₁, hdrop₂, append_assoc]

theorem ParseState.inv_start : (⟨[], []⟩ : ParseState T).Inv [] .nil [] :=
  ⟨rfl, rfl, [], [], .nil, .nil, rfl⟩

/-- **The items of an accepted text are those of the structure that its tags describe.** -/
theorem parse_blocks {n : Names T} {template : List Char} {t : Template T} (h : parse n template = .ok t) :
    ∃ tags blocks, Reads n template tags ∧ Blocks.Spelled blocks (dropStrays 0 tags) ∧ t.items = blocks.items 0 := by
  obtain ⟨s', hparse, h⟩ := bind_eq_ok h
  obtain ⟨tags, hreads, hrun⟩ := reads_of_parseFrom hparse
  obtain ⟨fs, cur, new, hinv, hdrop⟩ := ParseState.inv_start.run hrun
  have hdrop := hdrop []
  rw [append_nil] at hdrop
  split at h
  · rename_i hstack
    obtain rfl := Except.ok.inj h
    rw [hinv.stack_eq] at hstack
    match fs with
    | [] =>
      obtain ⟨outer, inner, houter, hinner, heq⟩ := hinv.spelled
      cases houter
      rw [nil_append] at heq
      refine ⟨tags, cur, hreads, ?_, hinv.items_eq⟩
      show Blocks.Spelled cur (dropStrays ([] : List (Frame T)).length tags)
      rw [hdrop, heq]
      show Blocks.Spelled cur (inner ++ [])
      rw [append_nil]
      exact hinner
    | f :: fs => cases hstack
  · cases h

end Template

end MailServer.Utils
