import MailServer.Common.Expr.Parser

/-!
# Expression trees

The expressions that the configuration language is for, with their tokens and the postfix program that stands for them.

* `Tree`: an expression, with its parentheses.
* `Tree.WellFormed`: it is read as it is by the precedences.
* `Tree.tokens`, `Tree.code`: its tokens and its program.
* `Tree.Parsable`: what the parser makes no mistake about.
-/

namespace MailServer.Common.Expr

inductive Tree (L : Language) where
  | var (v : L.Var)
  | global (name : String)
  | capture (n : ℕ)
  | constant (c : Constant L)
  | system (s : L.Sys)
  | unary (op : UnaryOperator) (e : Tree L)
  | binary (op : BinaryOperator) (left right : Tree L)
  | call (name : String) (id : ℕ) (args : List (Tree L))
  | regex (r : L.Rgx) (e : Tree L)
  | access (base index : Tree L)
  | array (items : List (Tree L))
  | paren (e : Tree L)

namespace Tree

variable {L : Language}

/-- How tightly the outermost operator binds. -/
def level : Tree L → ℕ
  | .unary _ _ => 8
  | .binary op _ _ => op.precedence
  | _ => 9

/-! ## Tokens -/

mutual

def tokens : Tree L → List (Token L)
  | .var v => [.var v]
  | .global name => [.global name]
  | .capture n => [.capture n]
  | .constant c => [.constant c]
  | .system s => [.system s, .openParen, .closeParen]
  | .unary op e => .unaryOperator op :: e.tokens
  | .binary op left right => left.tokens ++ .binaryOperator op :: right.tokens
  | .call name id args => .function name id args.length :: .openParen :: (listTokens args ++ [.closeParen])
  | .regex r e => .regex r :: .openParen :: (e.tokens ++ [.closeParen])
  | .access base index => base.tokens ++ .openBracket :: (index.tokens ++ [.closeBracket])
  | .array items => .openBracket :: (listTokens items ++ [.closeBracket])
  | .paren e => .openParen :: (e.tokens ++ [.closeParen])

/-- Trees with commas between them. -/
def listTokens : List (Tree L) → List (Token L)
  | [] => []
  | e :: es => e.tokens ++ moreTokens es

def moreTokens : List (Tree L) → List (Token L)
  | [] => []
  | e :: es => .comma :: (e.tokens ++ moreTokens es)

end

/-! ## Programs -/

mutual

def code : Tree L → List (ExpressionItem L)
  | .var v => [.var v]
  | .global name => [.global name]
  | .capture n => [.capture n]
  | .constant c => [.constant c]
  | .system s => [.system s]
  | .unary op e => e.code ++ [.unaryOperator op]
  | .binary op left right =>
    match op.jumpsIf with
    | some val => left.code ++ [.jmpIf val (right.code.length + 1)] ++ right.code ++ [.binaryOperator op]
    | none => left.code ++ right.code ++ [.binaryOperator op]
  | .call _ id args => listCode args ++ [.function id args.length]
  | .regex r e => e.code ++ [.regex r]
  | .access base index => base.code ++ index.code ++ [.arrayAccess]
  | .array items => listCode items ++ [.arrayBuild items.length]
  | .paren e => e.code

def listCode : List (Tree L) → List (ExpressionItem L)
  | [] => []
  | e :: es => e.code ++ listCode es

end

/-! ## Conditions -/

mutual

/-- Operands that bind less tightly stand in parentheses, and functions have ids of their own. -/
def WellFormed : Tree L → Prop
  | .unary _ e => 8 ≤ e.level ∧ e.WellFormed
  | .binary op left right =>
    (op.precedence ≤ left.level ∧ left.WellFormed) ∧ op.precedence < right.level ∧ right.WellFormed
  | .call _ id args => id < idArrayBuild ∧ AllWellFormed args
  | .access base index => (base.level = 9 ∧ base.WellFormed) ∧ index.WellFormed
  | .array items => AllWellFormed items
  | .regex _ e | .paren e => e.WellFormed
  | _ => True

def AllWellFormed : List (Tree L) → Prop
  | [] => True
  | e :: es => e.WellFormed ∧ AllWellFormed es

end

/-- The last token is one after which a bracket is taken for an index. -/
def endsVar : Tree L → Bool
  | .global _ | .capture _ | .constant _ => false
  | .unary _ e | .binary _ _ e => e.endsVar
  | _ => true

/-- The first token is one that is counted as an operand, not an operator or a parenthesis. -/
def leads : Tree L → Bool
  | .unary _ _ | .paren _ => false
  | .binary _ e _ | .access e _ => e.leads
  | _ => true

mutual

/-- No array has an item that begins with an operator or a parenthesis, and no constant, global variable or capture has an
index. -/
def Parsable : Tree L → Prop
  | .unary _ e | .regex _ e | .paren e => e.Parsable
  | .binary _ left right => left.Parsable ∧ right.Parsable
  | .call _ _ args => AllParsable args
  | .access base index => base.endsVar = true ∧ base.Parsable ∧ index.Parsable
  | .array items => (∀ e ∈ items, e.leads = true) ∧ AllParsable items
  | _ => True

def AllParsable : List (Tree L) → Prop
  | [] => True
  | e :: es => e.Parsable ∧ AllParsable es

end

end Tree

end MailServer.Common.Expr
