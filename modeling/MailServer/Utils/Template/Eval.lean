import MailServer.Utils.Template

/-!
# Evaluation of templates

* `Blocks.entryText`, `Blocks.mainText`: what the two loops make of a structure; the one for an entry takes the items of
  an `each` block as they come.
* `eval_eq`: evaluation gives that text, and ends.
* `Blocks.Plain`: the variables for which it is the text that the structure should give, `eval_iff`.
-/

namespace MailServer.Utils

open List Option

open Template Blocks

namespace Blocks

variable {T V : Type*} (asRef : V → List Char)

/-- The text for an entry. -/
def entryText (entry : T → Option V) : Blocks T → List Char
  | nil => []
  | static text rest => text ++ entryText entry rest
  | var name escape rest => insertVar asRef escape (entryScope entry name) ++ entryText entry rest
  | block false name body rest => (if (entry name).isSome then entryText entry body else []) ++ entryText entry rest
  | block true _ body rest => entryText entry body ++ entryText entry rest

def mainText (vars : Variables T V) : Blocks T → List Char
  | nil => []
  | static text rest => text ++ mainText vars rest
  | var name escape rest => insertVar asRef escape (vars name) ++ mainText vars rest
  | block false name body rest => (if (vars name).isSome then mainText vars body else []) ++ mainText vars rest
  | block true name body rest =>
    (match vars name with
      | some (.block entries) => entries.flatMap fun entry => entryText asRef entry body
      | _ => []) ++ mainText vars rest

/-- The entry gives no text. -/
def Quiet (entry : T → Option V) : Blocks T → Prop
  | nil => True
  | static text rest => text = [] ∧ Quiet entry rest
  | var name _ rest => (∀ value, entry name = some value → asRef value = []) ∧ Quiet entry rest
  | block false name body rest => ((entry name).isSome → Quiet entry body) ∧ Quiet entry rest
  | block true _ body rest => Quiet entry body ∧ Quiet entry rest

/-- The `each` blocks that the entry reaches give no text for it. -/
def Flat (entry : T → Option V) : Blocks T → Prop
  | nil => True
  | static _ rest => Flat entry rest
  | var _ _ rest => Flat entry rest
  | block false name body rest => ((entry name).isSome → Flat entry body) ∧ Flat entry rest
  | block true _ body rest => Quiet asRef entry body ∧ Flat entry rest

/-- The `each` blocks within `each` blocks give no text for the entries of the outer one. -/
def Plain (vars : Variables T V) : Blocks T → Prop
  | nil => True
  | static _ rest => Plain vars rest
  | var _ _ rest => Plain vars rest
  | block false name body rest => ((vars name).isSome → Plain vars body) ∧ Plain vars rest
  | block true name body rest =>
    (∀ entries, vars name = some (.block entries) → ∀ entry ∈ entries, Flat asRef entry body) ∧ Plain vars rest

end Blocks

namespace Template

variable {T V : Type*} {asRef : V → List Char} {items a b : List (TemplateItem T)} {i e : ℕ}

/-! ## Slices -/

theorem slice_eq_some : slice items i e = some a ↔
    i ≤ e ∧ e ≤ items.length ∧ (items.drop i).take (e - i) = a := by
  unfold slice
  split_ifs with h
  · rw [some.injEq, ← and_assoc, and_iff_right h]
  · exact iff_of_false (fun h => by cases h) fun h' => h ⟨h'.1, h'.2.1⟩

theorem slice_length (h : slice items i e = some a) : i + a.length = e := by
  obtain ⟨hle, hlen, rfl⟩ := slice_eq_some.1 h
  rw [length_take, length_drop]
  omega

theorem slice_behind (h : slice items i e = some (a ++ b)) : slice items (i + a.length) e = some b := by
  have hlength := slice_length h
  rw [length_append] at hlength
  obtain ⟨hle, hlen, heq⟩ := slice_eq_some.1 h
  refine slice_eq_some.2 ⟨by omega, hlen, ?_⟩
  have hdrop := congrArg (List.drop a.length) heq
  rw [drop_left, drop_take, drop_drop] at hdrop
  rw [← hdrop]
  congr 1
  omega

theorem slice_before (h : slice items i e = some (a ++ b)) : slice items i (i + a.length) = some a := by
  have hlength := slice_length h
  rw [length_append] at hlength
  obtain ⟨hle, hlen, heq⟩ := slice_eq_some.1 h
  refine slice_eq_some.2 ⟨Nat.le_add_right _ _, by omega, ?_⟩
  have htake := congrArg (List.take a.length) heq
  rw [take_left, take_take, Nat.min_eq_left (by omega)] at htake
  rw [Nat.add_sub_cancel_left]
  exact htake

/-! ## The loops -/

variable {entry : T → Option V} {tail : List (TemplateItem T)}

theorem insert_entry (escape : Bool) (name : T) :
    ((entry name).map (insertValue asRef escape)).getD [] = insertVar asRef escape (entryScope entry name) := by
  unfold entryScope
  cases entry name <;> rfl

theorem slice_block {isEach : Bool} {name : T} {body rest : Blocks T}
    (h : slice items i e = some ((Blocks.block isEach name body rest).items i ++ tail)) :
    (Blocks.block isEach name body rest).items i ++ tail = [openItem isEach name (i + 1 + body.size)] ++
        (body.items (i + 1) ++ (rest.items (i + 1 + body.size) ++ tail)) ∧
      slice items (i + 1) e = some (body.items (i + 1) ++ (rest.items (i + 1 + body.size) ++ tail)) ∧
      slice items (i + 1 + body.size) e = some (rest.items (i + 1 + body.size) ++ tail) := by
  have hitems : (Blocks.block isEach name body rest).items i ++ tail = [openItem isEach name (i + 1 + body.size)] ++
      (body.items (i + 1) ++ (rest.items (i + 1 + body.size) ++ tail)) := by
    simp [Blocks.items]
  rw [hitems] at h
  have hbody := slice_behind h
  have hrest := slice_behind hbody
  rw [Blocks.length_items] at hrest
  exact ⟨hitems, hbody, hrest⟩

/-- **The loop for an entry** gives the text of a structure and goes on behind it. -/
theorem evalEntry_blocks (asRef : V → List Char) (entry : T → Option V) (blocks : Blocks T) (h : slice items i e = some (blocks.items i ++ tail)) :
    ∃ k ≤ blocks.size, ∀ fuel result, evalEntry asRef items e entry (fuel + k) (blocks.items i ++ tail) result =
      evalEntry asRef items e entry fuel tail (result ++ blocks.entryText asRef entry) := by
  induction blocks generalizing i tail with
  | nil => exact ⟨0, Nat.le_refl _, fun fuel result => by rw [entryText, append_nil]; rfl⟩
  | static text rest ih =>
    obtain ⟨k, hk, hrest⟩ := ih (slice_behind (a := [_]) h)
    refine ⟨k + 1, Nat.succ_le_succ hk, fun fuel result => ?_⟩
    rw [entryText, ← append_assoc, ← hrest]
    rfl
  | var name escape rest ih =>
    obtain ⟨k, hk, hrest⟩ := ih (slice_behind (a := [_]) h)
    refine ⟨k + 1, Nat.succ_le_succ hk, fun fuel result => ?_⟩
    rw [entryText, ← append_assoc, ← hrest, ← insert_entry]
    rfl
  | block isEach name body rest ihb ihr =>
    obtain ⟨hitems, hbody, hrest⟩ := slice_block h
    obtain ⟨k, hk, hbody⟩ := ihb hbody
    obtain ⟨l, hl, hafter⟩ := ihr hrest
    rw [hitems]
    -- the body is taken as it comes
    have hthrough (fuel : ℕ) (result : List Char) :
        evalEntry asRef items e entry (fuel + l + k) (body.items (i + 1) ++ (rest.items (i + 1 + body.size) ++ tail))
          result = evalEntry asRef items e entry fuel tail
            (result ++ (body.entryText asRef entry ++ rest.entryText asRef entry)) := by
      rw [hbody, hafter, append_assoc]
    have hsize : l + k + 1 ≤ (block isEach name body rest).size := by
      show l + k + 1 ≤ body.size + rest.size + 1
      omega
    cases isEach with
    | true =>
      refine ⟨l + k + 1, hsize, fun fuel result => ?_⟩
      rw [entryText, ← hthrough, ← Nat.add_assoc, ← Nat.add_assoc]
      rfl
    | false =>
      by_cases hdef : (entry name).isSome = true
      · refine ⟨l + k + 1, hsize, fun fuel result => ?_⟩
        rw [entryText, if_pos hdef, ← hthrough, ← Nat.add_assoc, ← Nat.add_assoc]
        show (if (entry name).isNone then _ else _) = _
        rw [if_neg (by simpa [isSome_iff_ne_none] using hdef)]
        rfl
      · refine ⟨l + 1, by omega, fun fuel result => ?_⟩
        rw [entryText, if_neg hdef, nil_append, ← hafter]
        show (if (entry name).isNone then _ else _) = _
        rw [if_pos (by simpa using hdef)]
        rw [hrest]
        rfl

variable {blocks : Blocks T} {fuel : ℕ}

theorem evalEntry_eq (h : slice items i e = some (blocks.items i)) (hfuel : blocks.size < fuel)
    (result : List Char) :
    evalEntry asRef items e entry fuel (blocks.items i) result = some (result ++ blocks.entryText asRef entry) := by
  rw [← append_nil (blocks.items i)] at h ⊢
  obtain ⟨k, hk, heval⟩ := evalEntry_blocks asRef entry blocks h
  obtain ⟨fuel, rfl⟩ := Nat.exists_eq_add_of_lt (Nat.lt_of_le_of_lt hk hfuel)
  rw [show k + fuel + 1 = fuel + 1 + k by omega, heval]
  rfl

theorem foldlM_evalEntry (h : slice items i e = some (blocks.items i)) (hfuel : blocks.size < fuel)
    (entries : List (T → Option V)) (result : List Char) :
    entries.foldlM (fun result entry => evalEntry asRef items e entry fuel (blocks.items i) result) result =
      some (result ++ entries.flatMap fun entry => blocks.entryText asRef entry) := by
  induction entries generalizing result with
  | nil => rw [flatMap_nil, append_nil]; rfl
  | cons entry entries ih =>
    rw [foldlM_cons, evalEntry_eq h hfuel, flatMap_cons, ← append_assoc]
    exact ih _

/-- **The loop over the items** gives the text of a structure and goes on behind it, with turns left for the entries. -/
theorem evalFrom_blocks (asRef : V → List Char) (vars : Variables T V) (blocks : Blocks T)
    (h : slice items i items.length = some (blocks.items i ++ tail)) :
    ∃ k ≤ blocks.size, ∀ fuel result, items.length < fuel →
      evalFrom asRef items vars (fuel + k) i (blocks.items i ++ tail) result =
        evalFrom asRef items vars fuel (i + blocks.size) tail (result ++ blocks.mainText asRef vars) := by
  induction blocks generalizing i tail with
  | nil => exact ⟨0, Nat.le_refl _, fun fuel result _ => by rw [mainText, append_nil]; rfl⟩
  | static text rest ih =>
    obtain ⟨k, hk, hrest⟩ := ih (slice_behind (a := [_]) h)
    refine ⟨k + 1, Nat.succ_le_succ hk, fun fuel result hfuel => ?_⟩
    have hrest := hrest fuel (result ++ text) hfuel
    rw [length_singleton, Nat.add_right_comm i 1] at hrest
    rw [mainText, ← append_assoc]
    exact hrest
  | var name escape rest ih =>
    obtain ⟨k, hk, hrest⟩ := ih (slice_behind (a := [_]) h)
    refine ⟨k + 1, Nat.succ_le_succ hk, fun fuel result hfuel => ?_⟩
    have hrest := hrest fuel (result ++ insertVar asRef escape (vars name)) hfuel
    rw [length_singleton, Nat.add_right_comm i 1] at hrest
    rw [mainText, ← append_assoc]
    exact hrest
  | block isEach name body rest ihb ihr =>
    obtain ⟨hitems, hbody, hrest⟩ := slice_block h
    have hend : i + (block isEach name body rest).size = i + 1 + body.size + rest.size := by
      rw [size]
      omega
    have hinner := slice_before hbody
    rw [length_items] at hinner
    have hsize : body.size ≤ items.length := by
      have := (slice_eq_some.1 hrest).1
      omega
    obtain ⟨l, hl, hafter⟩ := ihr hrest
    rw [hitems, hend]
    cases isEach with
    | true =>
      refine ⟨l + 1, by omega, fun fuel result hfuel => ?_⟩
      have hgo (text : List Char) : ((slice items (i + 1 + body.size) items.length).bind fun rest =>
          evalFrom asRef items vars (fuel + l) (i + 1 + body.size) rest (result ++ text)) =
            evalFrom asRef items vars fuel (i + 1 + body.size + rest.size) tail
              (result ++ (text ++ rest.mainText asRef vars)) := by
        rw [hrest, bind_some, hafter _ _ hfuel, append_assoc]
      rw [mainText, ← hgo, ← Nat.add_assoc]
      show Option.bind (match vars name with
        | some (.block entries) => _
        | _ => _) _ = _
      cases hvar : vars name with
      | none =>
        rw [append_nil]
        rfl
      | some v =>
        cases v with
        | single value =>
          rw [append_nil]
          rfl
        | block entries =>
          dsimp only
          rw [hinner, bind_some, foldlM_evalEntry hinner (by omega), bind_some]
    | false =>
      obtain ⟨k, hk, hbody⟩ := ihb hbody
      by_cases hdef : (vars name).isSome = true
      · refine ⟨l + k + 1, by omega, fun fuel result hfuel => ?_⟩
        have hgo : evalFrom asRef items vars (fuel + l + k) (i + 1)
            (body.items (i + 1) ++ (rest.items (i + 1 + body.size) ++ tail)) result =
              evalFrom asRef items vars fuel (i + 1 + body.size + rest.size) tail
                (result ++ (body.mainText asRef vars ++ rest.mainText asRef vars)) := by
          rw [hbody _ _ (by omega), hafter _ _ hfuel, append_assoc]
        rw [mainText, if_pos hdef, ← hgo, ← Nat.add_assoc, ← Nat.add_assoc]
        show (if (vars name).isNone then _ else _) = _
        rw [if_neg (by simpa [isSome_iff_ne_none] using hdef)]
        rfl
      · refine ⟨l + 1, by omega, fun fuel result hfuel => ?_⟩
        rw [mainText, if_neg hdef, nil_append, ← hafter _ _ hfuel]
        show (if (vars name).isNone then _ else _) = _
        rw [if_pos (by simpa using hdef)]
        rw [hrest]
        rfl

/-- **Evaluation ends, and no slice is out of range.** -/
theorem eval_eq {t : Template T} (h : t.items = blocks.items 0) (vars : Variables T V)
    (hfuel : 2 * t.items.length + 1 < fuel) : t.eval asRef vars fuel = some (blocks.mainText asRef vars) := by
  have hslice : slice t.items 0 t.items.length = some (blocks.items 0 ++ []) := by
    rw [append_nil, ← h]
    exact slice_eq_some.2 ⟨Nat.zero_le _, Nat.le_refl _, take_length⟩
  obtain ⟨k, hk, heval⟩ := evalFrom_blocks asRef vars blocks hslice
  have hlen : t.items.length = blocks.size := by rw [h, length_items]
  obtain ⟨fuel, rfl⟩ : ∃ f, fuel = t.items.length + 1 + f + k := ⟨fuel - (t.items.length + 1 + k), by omega⟩
  have heval := heval (t.items.length + 1 + fuel) [] (by omega)
  rw [append_nil, ← h] at heval
  rw [eval, heval, show t.items.length + 1 + fuel = t.items.length + fuel + 1 by omega]
  rfl

end Template

/-! ## What the structure should give -/

namespace Blocks

variable {T V : Type*} {asRef : V → List Char} {entry : T → Option V}

theorem htmlEscape_eq_nil {text : List Char} : htmlEscape text = [] ↔ text = [] := by
  constructor
  · intro h
    match text with
    | [] => rfl
    | c :: text =>
      have hc := (append_eq_nil_iff.mp ((flatMap_cons ..).symm.trans h)).1
      split_ifs at hc <;> cases hc
  · rintro rfl
    rfl

theorem insertVar_eq_nil {escape : Bool} {name : T} : insertVar asRef escape (entryScope entry name) = [] ↔
    ∀ value, entry name = some value → asRef value = [] := by
  rw [entryScope]
  cases entry name with
  | none => exact iff_of_true rfl fun value h => by cases h
  | some value =>
    simp only [some.injEq, forall_eq']
    cases escape with
    | true => exact htmlEscape_eq_nil
    | false => exact Iff.rfl

theorem entryText_eq_nil (b : Blocks T) : b.entryText asRef entry = [] ↔ b.Quiet asRef entry := by
  induction b with
  | nil => exact iff_of_true rfl trivial
  | static text rest ih => rw [entryText, append_eq_nil_iff, ih, Quiet]
  | var name escape rest ih => rw [entryText, append_eq_nil_iff, ih, Quiet, insertVar_eq_nil]
  | block isEach name body rest ihb ihr =>
    cases isEach with
    | true => rw [entryText, append_eq_nil_iff, ihb, ihr, Quiet]
    | false =>
      rw [entryText, append_eq_nil_iff, ihr, Quiet, ← ihb]
      refine and_congr_left' ?_
      by_cases hdef : (entry name).isSome = true
      · rw [if_pos hdef, imp_iff_right hdef]
      · rw [if_neg hdef]
        exact iff_of_true rfl fun h => absurd h hdef

/-- The first text is as long as the second, and the same just if `p`. -/
def AtLeast (a a' : List Char) (p : Prop) : Prop := a'.length ≤ a.length ∧ (a = a' ↔ p)

theorem AtLeast.append {a b a' b' : List Char} {p q : Prop} (ha : AtLeast a a' p) (hb : AtLeast b b' q) :
    AtLeast (a ++ b) (a' ++ b') (p ∧ q) := by
  obtain ⟨hlen, rfl⟩ := And.imp_right propext ha
  obtain ⟨hlen', rfl⟩ := And.imp_right propext hb
  refine ⟨by rw [length_append, length_append]; omega, fun h => append_inj h ?_, ?_⟩
  · have := congrArg List.length h
    rw [length_append, length_append] at this
    omega
  · rintro ⟨rfl, rfl⟩
    rfl

theorem AtLeast.behind {b b' : List Char} {q : Prop} (a : List Char) (hb : AtLeast b b' q) :
    AtLeast (a ++ b) (a ++ b') q :=
  have h := AtLeast.append ⟨Nat.le_refl a.length, Iff.rfl⟩ hb
  ⟨h.1, h.2.trans (and_iff_right rfl)⟩

theorem AtLeast.guarded {a a' : List Char} {p c : Prop} [Decidable c] (h : AtLeast a a' p) :
    AtLeast (if c then a else []) (if c then a' else []) (c → p) := by
  split_ifs with hc
  · rwa [imp_iff_right hc]
  · exact ⟨Nat.le_refl _, iff_of_true rfl fun h => absurd h hc⟩

theorem render_each_entry (name : T) (body rest : Blocks T) :
    (block true name body rest).render asRef (entryScope entry) = rest.render asRef (entryScope entry) := by
  rw [render]
  unfold entryScope
  cases entry name <;> rfl

theorem entryText_iff (asRef : V → List Char) (entry : T → Option V) (b : Blocks T) :
    AtLeast (b.entryText asRef entry) (b.render asRef (entryScope entry)) (b.Flat asRef entry) := by
  induction b with
  | nil => exact ⟨Nat.le_refl _, iff_of_true rfl trivial⟩
  | static text rest ih => exact ih.behind text
  | var name escape rest ih => exact ih.behind _
  | block isEach name body rest ihb ihr =>
    cases isEach with
    | true =>
      rw [render_each_entry, Flat, ← entryText_eq_nil, ← nil_append (rest.render asRef _)]
      exact AtLeast.append ⟨Nat.zero_le _, Iff.rfl⟩ ihr
    | false =>
      have hdefined : (entryScope entry name).isSome = (entry name).isSome := by
        unfold entryScope
        cases entry name <;> rfl
      rw [render, hdefined]
      exact ihb.guarded.append ihr

theorem flatMap_iff (asRef : V → List Char) (body : Blocks T) (entries : List (T → Option V)) :
    AtLeast (entries.flatMap fun entry => body.entryText asRef entry)
      (entries.flatMap fun entry => body.render asRef (entryScope entry)) (∀ entry ∈ entries, body.Flat asRef entry) := by
  induction entries with
  | nil => exact ⟨Nat.le_refl _, iff_of_true rfl fun entry h => absurd h not_mem_nil⟩
  | cons entry entries ih =>
    rw [forall_mem_cons]
    exact (entryText_iff asRef entry body).append ih

theorem mainText_iff (vars : Variables T V) (b : Blocks T) :
    AtLeast (b.mainText asRef vars) (b.render asRef vars) (b.Plain asRef vars) := by
  induction b with
  | nil => exact ⟨Nat.le_refl _, iff_of_true rfl trivial⟩
  | static text rest ih => exact ih.behind text
  | var name escape rest ih => exact ih.behind _
  | block isEach name body rest ihb ihr =>
    cases isEach with
    | true =>
      refine AtLeast.append ?_ ihr
      cases hvar : vars name with
      | none => exact ⟨Nat.le_refl _, iff_of_true rfl fun entries h => by cases h⟩
      | some v =>
        cases v with
        | single value => exact ⟨Nat.le_refl _, iff_of_true rfl fun entries h => by cases h⟩
        | block entries =>
          simp only [some.injEq, Variable.block.injEq, forall_eq']
          exact flatMap_iff asRef body entries
    | false =>
      exact ihb.guarded.append ihr

end Blocks

namespace Template

variable {T V : Type*}

/-- **Evaluation of an accepted template** ends, and gives the text of its structure if and only if the `each` blocks
within `each` blocks give no text for the entries of the outer one. -/
theorem eval_iff (asRef : V → List Char) {n : Names T} {template : List Char} {t : Template T}
    (h : parse n template = .ok t) :
    ∃ tags blocks, Reads n template tags ∧ Blocks.Spelled blocks (dropStrays 0 tags) ∧ t.items = blocks.items 0 ∧
      ∀ vars, ∃ text, (∃ turns, ∀ fuel, turns < fuel → t.eval asRef vars fuel = some text) ∧
        (text = blocks.render asRef vars ↔ blocks.Plain asRef vars) := by
  obtain ⟨tags, blocks, hreads, hspelled, hitems⟩ := parse_blocks h
  exact ⟨tags, blocks, hreads, hspelled, hitems, fun vars => ⟨blocks.mainText asRef vars,
    ⟨2 * t.items.length + 1, fun fuel hfuel => eval_eq hitems vars hfuel⟩, (mainText_iff vars blocks).2⟩⟩

/-- Names as they are written. -/
def plainNames : Names (List Char) where
  fromStr := some
  trim text := ((text.dropWhile Char.isWhitespace).reverse.dropWhile Char.isWhitespace).reverse

/-- An `each` block in another. -/
def nested : List Char :=
  "\x7b\x7b#each a\x7d\x7d\x7b\x7b#each b\x7d\x7dx\x7b\x7b/each b\x7d\x7d\x7b\x7b/each a\x7d\x7d".toList

def nestedItems : List (TemplateItem (List Char)) :=
  [.forEach ['a'] 3, .forEach ['b'] 3, .static ['x']]

def nestedBlocks : Blocks (List Char) :=
  .block true ['a'] (.block true ['b'] (.static ['x'] .nil) .nil) .nil

theorem parse_nested : parse plainNames nested = .ok ⟨nestedItems⟩ := by
  decide +kernel

/-- One entry without variables. -/
def oneEntry : Variables (List Char) (List Char) :=
  fun name => if name = ['a'] then some (.block [fun _ => none]) else none

theorem eval_nested : ∃ tags blocks, Reads plainNames nested tags ∧ Blocks.Spelled blocks (dropStrays 0 tags) ∧
    nestedItems = blocks.items 0 ∧ ∀ vars : Variables (List Char) (List Char),
      ∃ text, (∃ turns, ∀ fuel, turns < fuel → (Template.mk nestedItems).eval id vars fuel = some text) ∧
        (text = blocks.render id vars ↔ blocks.Plain id vars) :=
  eval_iff id parse_nested

/-- The body of the inner block is given once for the entry, which has no variable `b`. -/
theorem not_eval : parse plainNames nested = .ok ⟨nestedItems⟩ ∧ nestedItems = nestedBlocks.items 0 ∧
    (Template.mk nestedItems).eval id oneEntry 9 = some ['x'] ∧ nestedBlocks.render id oneEntry = [] :=
  ⟨parse_nested, by decide, by decide, by decide⟩

end Template

end MailServer.Utils
