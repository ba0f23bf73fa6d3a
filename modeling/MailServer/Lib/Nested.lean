import Mathlib.Algebra.Order.Group.Int

/-!
# Bracketed sequences and their trees

A flat list of tokens (leaves, labelled opening brackets, closing brackets) and the forest it spells
when it is well nested.  `Nested` is the forest: a member is a leaf or a labelled group, and every
constructor carries the members that follow it, so a recursion over the forest reads the list from
left to right.

* `Nested.tokens` / `parse`: the list of a forest and back (`parse_tokens`).
* `surplus l`: how many more closing than opening brackets `l` has.  A forest has none
  (`surplus_tokens`).
* `skipToClose`: drop everything before the next closing bracket.  Over a forest that is not flat it
  swallows an opening bracket, and the surplus grows (`skipToClose_not_flat`).
-/

namespace MailServer.Lib

/-- A token of a bracketed sequence: leaves in `α`, opening brackets labelled in `γ`. -/
inductive Tok (γ α : Type) where
  | leaf (x : α)
  | opening (g : γ)
  | closing
  deriving DecidableEq, Repr

/-- The forest of a well-nested sequence. -/
inductive Nested (γ α : Type) where
  | nil
  | leaf (x : α) (rest : Nested γ α)
  | group (g : γ) (members rest : Nested γ α)
  deriving DecidableEq, Repr

namespace Nested

variable {γ α β : Type}

/-- The token list a forest spells. -/
def tokens : Nested γ α → List (Tok γ α)
  | nil => []
  | leaf x rest => .leaf x :: rest.tokens
  | group g members rest => .opening g :: (members.tokens ++ .closing :: rest.tokens)

/-- Concatenation of two forests. -/
def append : Nested γ α → Nested γ α → Nested γ α
  | nil, u => u
  | leaf x rest, u => leaf x (rest.append u)
  | group g members rest, u => group g members (rest.append u)

/-- No member is a group. -/
def Flat : Nested γ α → Prop
  | nil => True
  | leaf _ rest => rest.Flat
  | group _ _ _ => False

instance decidableFlat : (t : Nested γ α) → Decidable t.Flat
  | nil => isTrue trivial
  | leaf _ rest => decidableFlat rest
  | group _ _ _ => isFalse id

@[simp] theorem tokens_nil : (nil : Nested γ α).tokens = [] := rfl

@[simp] theorem tokens_leaf (x : α) (rest : Nested γ α) :
    (leaf x rest).tokens = .leaf x :: rest.tokens := rfl

@[simp] theorem tokens_group (g : γ) (m rest : Nested γ α) :
    (group g m rest).tokens = .opening g :: (m.tokens ++ .closing :: rest.tokens) := rfl

@[simp] theorem flat_leaf (x : α) (rest : Nested γ α) : (leaf x rest).Flat ↔ rest.Flat := Iff.rfl

@[simp] theorem not_flat_group (g : γ) (m rest : Nested γ α) : ¬ (group g m rest).Flat := id

@[simp] theorem nil_append (u : Nested γ α) : (nil : Nested γ α).append u = u := rfl

@[simp] theorem append_nil (t : Nested γ α) : t.append nil = t := by
  induction t with
  | nil => rfl
  | leaf x rest ih => simp [append, ih]
  | group g m rest _ ih => simp [append, ih]

@[simp] theorem tokens_append (t u : Nested γ α) :
    (t.append u).tokens = t.tokens ++ u.tokens := by
  induction t with
  | nil => rfl
  | leaf x rest ih => simp [append, ih]
  | group g m rest _ ih => simp [append, ih]

end Nested

section

variable {γ α : Type}

/-- Read a token list from the right: the forest up to the first unmatched closing bracket, and the
forests that follow each unmatched closing bracket. -/
def parseAux : List (Tok γ α) → Option (Nested γ α × List (Nested γ α))
  | [] => some (.nil, [])
  | .leaf x :: l => (parseAux l).map fun p => (.leaf x p.1, p.2)
  | .closing :: l => (parseAux l).map fun p => (.nil, p.1 :: p.2)
  | .opening g :: l =>
    match parseAux l with
    | some (m, rest :: st) => some (.group g m rest, st)
    | _ => none

/-- The forest of a well-nested list. -/
def parse (l : List (Tok γ α)) : Option (Nested γ α) :=
  match parseAux l with
  | some (t, []) => some t
  | _ => none

theorem parseAux_tokens (t : Nested γ α) : ∀ {l : List (Tok γ α)} {u st},
    parseAux l = some (u, st) → parseAux (t.tokens ++ l) = some (t.append u, st) := by
  induction t with
  | nil => intro l u st h; simpa using h
  | leaf x rest ih => intro l u st h; simp [parseAux, ih h, Nested.append]
  | group g m rest ihm ih =>
    intro l u st h
    have h1 : parseAux (Tok.closing :: (rest.tokens ++ l)) = some (.nil, rest.append u :: st) := by
      simp [parseAux, ih h]
    simp [parseAux, ihm h1, Nested.append]

@[simp] theorem parse_tokens (t : Nested γ α) : parse t.tokens = some t := by
  have h := parseAux_tokens t (show parseAux ([] : List (Tok γ α)) = some (.nil, []) from rfl)
  simp only [List.append_nil] at h
  simp [parse, h]

end

section

variable {γ α : Type}

/-- Closing brackets minus opening brackets. -/
def surplus : List (Tok γ α) → ℤ
  | [] => 0
  | .leaf _ :: l => surplus l
  | .opening _ :: l => surplus l - 1
  | .closing :: l => surplus l + 1

attribute [simp] surplus

@[simp] theorem surplus_append (l m : List (Tok γ α)) :
    surplus (l ++ m) = surplus l + surplus m := by
  induction l with
  | nil => simp
  | cons t l ih => cases t <;> simp [ih] <;> omega

@[simp] theorem surplus_tokens (t : Nested γ α) : surplus t.tokens = 0 := by
  induction t with
  | nil => rfl
  | leaf x rest ih => simpa using ih
  | group g m rest ihm ih => simp [ihm, ih]

/-- Drop the tokens before the next closing bracket. -/
def skipToClose : List (Tok γ α) → List (Tok γ α)
  | [] => []
  | .closing :: l => .closing :: l
  | .leaf _ :: l => skipToClose l
  | .opening _ :: l => skipToClose l

attribute [simp] skipToClose

theorem skipToClose_length_le (l : List (Tok γ α)) : (skipToClose l).length ≤ l.length := by
  induction l with
  | nil => simp
  | cons t l ih => cases t <;> simp <;> omega

@[simp] theorem skipToClose_idem (l : List (Tok γ α)) :
    skipToClose (skipToClose l) = skipToClose l := by
  induction l with
  | nil => rfl
  | cons t l ih => cases t <;> simp [ih]

/-- Skipping never lowers the surplus: only opening brackets and leaves are dropped. -/
theorem surplus_le_skipToClose (l : List (Tok γ α)) (h : 0 ≤ surplus l) :
    surplus l ≤ surplus (skipToClose l) := by
  induction l with
  | nil => simp
  | cons t l ih =>
    cases t with
    | leaf x => simpa using ih (by simpa using h)
    | opening g =>
      simp only [surplus] at h
      simp only [skipToClose, surplus]
      omega
    | closing => simp

/-- A list with a positive surplus stops the skip before its end, so what follows is untouched. -/
theorem skipToClose_append (l tail : List (Tok γ α)) (h : 0 < surplus l) :
    skipToClose (l ++ tail) = skipToClose l ++ tail := by
  induction l with
  | nil => simp at h
  | cons t l ih =>
    cases t with
    | leaf x => simpa using ih (by simpa using h)
    | opening g =>
      simp only [surplus] at h
      simpa using ih (by omega)
    | closing => simp

/-- The leaves of a flat forest are skipped as a whole. -/
theorem skipToClose_flat (t : Nested γ α) (h : t.Flat) (l : List (Tok γ α)) :
    skipToClose (t.tokens ++ l) = skipToClose l := by
  induction t with
  | nil => rfl
  | leaf x rest ih => simpa using ih h
  | group g m rest => exact absurd h (by simp)

/-- Over a forest that is not flat the skip stops at a closing bracket of the forest itself, and has
swallowed an opening bracket. -/
theorem skipToClose_not_flat (t : Nested γ α) (h : ¬ t.Flat) (l : List (Tok γ α)) :
    skipToClose (t.tokens ++ l) = skipToClose t.tokens ++ l ∧ 0 < surplus (skipToClose t.tokens) := by
  induction t with
  | nil => exact absurd trivial h
  | leaf x rest ih => simpa using ih h
  | group g m rest =>
    have hs : surplus (m.tokens ++ .closing :: rest.tokens) = 1 := by simp
    have hle := surplus_le_skipToClose (m.tokens ++ .closing :: rest.tokens) (by omega)
    have happ := skipToClose_append (m.tokens ++ .closing :: rest.tokens) l (by omega)
    simp only [List.append_assoc] at happ
    simp only [Nested.tokens_group, List.cons_append, List.append_assoc, skipToClose]
    exact ⟨happ, by omega⟩

end

end MailServer.Lib
