import Mathlib.Algebra.Order.Group.Unbundled.Int
import Mathlib.Algebra.Ring.Int.Defs

/-!
# Values of expressions (`common/src/expr/mod.rs`, `common/src/expr/eval.rs`)

* `Language`: the types that the configuration language is built on.
* `Variable`: a value, and its comparisons and conversions.
* `Variable.opAdd` to `Variable.opMinus`: the operators.
-/

namespace MailServer.Common.Expr

/-- `ExpressionVariable`, `ExpressionConstant`, `SystemVariable`, `Regex` and `f64`. -/
structure Language where
  Var : Type
  Stat : Type
  Sys : Type
  Rgx : Type
  Flt : Type

/-- What the standard library has for floats, numbers in texts and constants. -/
structure Prims (L : Language) where
  ofInt : ℤ → L.Flt
  add : L.Flt → L.Flt → L.Flt
  sub : L.Flt → L.Flt → L.Flt
  mul : L.Flt → L.Flt → L.Flt
  div : L.Flt → L.Flt → L.Flt
  neg : L.Flt → L.Flt
  zero : L.Flt
  eq : L.Flt → L.Flt → Bool
  cmp : L.Flt → L.Flt → Option Ordering
  toUsize : L.Flt → ℕ
  display : L.Flt → String
  parseInt : String → Option ℤ
  parseUsize : String → Option ℕ
  parseFloat : String → Option L.Flt
  asStr : L.Stat → String
  toId : L.Stat → ℕ

inductive Variable (L : Language) where
  | string (s : String)
  | integer (n : ℤ)
  | float (f : L.Flt)
  | array (items : List (Variable L))
  | constant (c : L.Stat)

inductive Constant (L : Language) where
  | static (c : L.Stat)
  | integer (n : ℤ)
  | float (f : L.Flt)
  | string (s : String)

inductive BinaryOperator where
  | add | subtract | multiply | divide | and | or | xor | eq | ne | lt | le | gt | ge
  deriving DecidableEq

inductive UnaryOperator where
  | not | minus
  deriving DecidableEq

/-- `i64::saturating_add` and its kind, of the exact result. -/
def saturate (n : ℤ) : ℤ := max (-0x8000000000000000) (min n 0x7FFFFFFFFFFFFFFF)

namespace Variable

variable {L : Language} (P : Prims L)

/-- `Variable::default` -/
def default : Variable L := .string ""

def ofConstant : Constant L → Variable L
  | .static c => .constant c
  | .integer n => .integer n
  | .float f => .float f
  | .string s => .string s

def ofBool (b : Bool) : Variable L := .integer (if b then 1 else 0)

def toBool : Variable L → Bool
  | .float f => !P.eq f P.zero
  | .integer n => n ≠ 0
  | .string s => s ≠ ""
  | .array items => !items.isEmpty
  | .constant _ => true

/-- `parse_number`, which leaves integers and floats only. -/
def parseNumber : Variable L → Variable L
  | .string s =>
    if s = "" then .integer 0
    else
      match P.parseInt s, P.parseFloat s with
      | some n, _ => .integer n
      | none, some f => .float f
      | none, none => .integer 0
  | .integer n => .integer n
  | .float f => .float f
  | .array items => .integer (if items.isEmpty then 1 else 0)
  | .constant _ => .integer 0

/-! ## Texts -/

/-- The text of an item of an array. -/
def itemText : Variable L → String
  | .string s => s
  | .integer n => toString n
  | .float f => P.display f
  | .array _ => ""
  | .constant c => P.asStr c

def intoString : Variable L → String
  | .array items =>
    items.foldl (fun text item => (if text = "" then text else text ++ "\r\n") ++ item.itemText P) ""
  | v => v.itemText P

def isEmpty : Variable L → Bool
  | .string s => s = ""
  | _ => false

def intoArray : Variable L → List (Variable L)
  | .array items => items
  | v => if v.isEmpty then [] else [v]

def toUsize : Variable L → Option ℕ
  | .integer n => some (n % 0x10000000000000000).toNat
  | .float f => some (P.toUsize f)
  | .string s => if s = "" then none else P.parseUsize s
  | _ => none

/-! ## Comparisons -/

/-- Equality of numbers. -/
def numEq : Variable L → Variable L → Bool
  | .integer a, .integer b => a = b
  | .float a, .float b => P.eq a b
  | .integer a, .float b | .float b, .integer a => P.eq (P.ofInt a) b
  | _, _ => false

mutual

def eq : Variable L → Variable L → Bool
  | .string a, .string b => a = b
  | .string a, b@(.integer _) | .string a, b@(.float _) => numEq P (parseNumber P (.string a)) b
  | a@(.integer _), .string b | a@(.float _), .string b => numEq P a (parseNumber P (.string b))
  | .array a, .array b => eqItems a b
  | a, b => numEq P a b

def eqItems : List (Variable L) → List (Variable L) → Bool
  | [], [] => true
  | a :: as, b :: bs => eq a b && eqItems as bs
  | _, _ => false

end

/-- Order of numbers. -/
def numCmp : Variable L → Variable L → Option Ordering
  | .integer a, .integer b => some (compare a b)
  | .float a, .float b => P.cmp a b
  | .integer a, .float b => P.cmp (P.ofInt a) b
  | .float a, .integer b => P.cmp a (P.ofInt b)
  | _, _ => some .lt

mutual

def partialCmp : Variable L → Variable L → Option Ordering
  | .string a, .string b => some (compare a b)
  | .string a, b@(.integer _) | .string a, b@(.float _) => numCmp P (parseNumber P (.string a)) b
  | a@(.integer _), .string b | a@(.float _), .string b => numCmp P a (parseNumber P (.string b))
  | .array a, .array b => cmpItems a b
  | .array _, _ | .string _, _ => some .gt
  | .constant a, .constant b => some (compare (P.toId a) (P.toId b))
  | a, b => numCmp P a b

def cmpItems : List (Variable L) → List (Variable L) → Option Ordering
  | [], [] => some .eq
  | [], _ :: _ => some .lt
  | _ :: _, [] => some .gt
  | a :: as, b :: bs =>
    match partialCmp a b with
    | some .eq => cmpItems as bs
    | other => other

end

/-! ## Operators -/

/-- An operator on numbers. -/
def arith (ints : ℤ → ℤ → Variable L) (floats : L.Flt → L.Flt → L.Flt) : Variable L → Variable L → Variable L
  | .integer a, .integer b => ints a b
  | .float a, .float b => .float (floats a b)
  | .integer a, .float b => .float (floats (P.ofInt a) b)
  | .float a, .integer b => .float (floats a (P.ofInt b))
  | _, _ => .integer 0

def opAdd : Variable L → Variable L → Variable L
  | .integer a, .integer b => .integer (saturate (a + b))
  | .float a, .float b => .float (P.add a b)
  | .integer i, .float f | .float f, .integer i => .float (P.add (P.ofInt i) f)
  | .array a, .array b => .array (a ++ b)
  | .array a, b => .array (a ++ [b])
  | a, .array b => .array (a :: b)
  | .string a, b => if a = "" then b else .string (a ++ b.itemText P)
  | a, .string b => if b = "" then a else .string (a.itemText P ++ b)
  | a, .constant _ => a
  | .constant _, b => b

def opSubtract : Variable L → Variable L → Variable L
  | .array a, b | b, .array a => .array (a.filter fun v => !v.eq P b)
  | a, b => arith P (fun a b => .integer (saturate (a - b))) P.sub (a.parseNumber P) (b.parseNumber P)

def opMultiply (a b : Variable L) : Variable L :=
  match a.parseNumber P, b.parseNumber P with
  | .integer i, .float f | .float f, .integer i => .float (P.mul (P.ofInt i) f)
  | a, b => arith P (fun a b => .integer (saturate (a * b))) P.mul a b

def opDivide (a b : Variable L) : Variable L :=
  match a.parseNumber P, b.parseNumber P with
  | .integer a, .integer b => .float (if b = 0 then P.zero else P.div (P.ofInt a) (P.ofInt b))
  | .float a, .float b => .float (if P.eq b P.zero then P.zero else P.div a b)
  | .integer a, .float b => .float (if P.eq b P.zero then P.zero else P.div (P.ofInt a) b)
  | .float a, .integer b => .float (if b = 0 then P.zero else P.div a (P.ofInt b))
  | _, _ => .integer 0

def opAnd (a b : Variable L) : Variable L := ofBool (a.toBool P && b.toBool P)

def opOr (a b : Variable L) : Variable L := ofBool (a.toBool P || b.toBool P)

def opXor (a b : Variable L) : Variable L := ofBool (a.toBool P ^^ b.toBool P)

def opEq (a b : Variable L) : Variable L := ofBool (a.eq P b)

def opNe (a b : Variable L) : Variable L := ofBool (!a.eq P b)

def opLt (a b : Variable L) : Variable L := ofBool (a.partialCmp P b = some .lt)

def opLe (a b : Variable L) : Variable L := ofBool (a.partialCmp P b = some .lt || a.partialCmp P b = some .eq)

def opGt (a b : Variable L) : Variable L := ofBool (a.partialCmp P b = some .gt)

def opGe (a b : Variable L) : Variable L := ofBool (a.partialCmp P b = some .gt || a.partialCmp P b = some .eq)

def opNot (a : Variable L) : Variable L := ofBool (!a.toBool P)

/-- The least `i64` is its own negative. -/
def opMinus (a : Variable L) : Variable L :=
  match a.parseNumber P with
  | .integer n => .integer (if n = -0x8000000000000000 then n else -n)
  | .float f => .float (P.neg f)
  | other => other

def binary : BinaryOperator → Variable L → Variable L → Variable L
  | .add => opAdd P
  | .subtract => opSubtract P
  | .multiply => opMultiply P
  | .divide => opDivide P
  | .and => opAnd P
  | .or => opOr P
  | .xor => opXor P
  | .eq => opEq P
  | .ne => opNe P
  | .lt => opLt P
  | .le => opLe P
  | .gt => opGt P
  | .ge => opGe P

def unary : UnaryOperator → Variable L → Variable L
  | .not => opNot P
  | .minus => opMinus P

theorem toBool_ofBool (b : Bool) : (ofBool b : Variable L).toBool P = b := by
  cases b <;> rfl

end Variable

end MailServer.Common.Expr
