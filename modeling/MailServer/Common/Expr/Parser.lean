import MailServer.Common.Expr.Variable

/-!
# Parsing of expressions (`common/src/expr/parser.rs`)

The tokens of an infix expression are turned into a postfix program with a stack of operators, on which calls, brackets and
parentheses lie as well.  A jump over the right side of `&&` and `||` gets its distance when the operator leaves the stack.

* `Parser.step`: one token.
* `parse`: all of them.
-/

namespace MailServer.Common.Expr

variable {L : Language}

inductive Token (L : Language) where
  | var (v : L.Var)
  | global (name : String)
  | capture (n : ℕ)
  | function (name : String) (id numArgs : ℕ)
  | constant (c : Constant L)
  | system (s : L.Sys)
  | regex (r : L.Rgx)
  | binaryOperator (op : BinaryOperator)
  | unaryOperator (op : UnaryOperator)
  | openParen
  | closeParen
  | openBracket
  | closeBracket
  | comma

inductive ExpressionItem (L : Language) where
  | var (v : L.Var)
  | global (name : String)
  | system (s : L.Sys)
  | capture (n : ℕ)
  | constant (c : Constant L)
  | binaryOperator (op : BinaryOperator)
  | unaryOperator (op : UnaryOperator)
  | regex (r : L.Rgx)
  | jmpIf (val : Bool) (pos : ℕ)
  | function (id numArgs : ℕ)
  | arrayAccess
  | arrayBuild (numItems : ℕ)

namespace BinaryOperator

def precedence : BinaryOperator → ℕ
  | .multiply | .divide => 7
  | .add | .subtract => 6
  | .gt | .ge | .lt | .le => 5
  | .eq | .ne => 4
  | .xor => 3
  | .and => 2
  | .or => 1

/-- The value for which the right side is skipped. -/
def jumpsIf : BinaryOperator → Option Bool
  | .and => some false
  | .or => some true
  | _ => none

end BinaryOperator

def idArrayAccess : ℕ := 0xFFFFFFFF

def idArrayBuild : ℕ := 0xFFFFFFFE

/-- A token on the operator stack, with the place of its jump. -/
abbrev Operator (L : Language) := Token L × Option ℕ

/-- The top of a stack is the head of the list. -/
structure Parser (L : Language) where
  output : List (ExpressionItem L)
  operatorStack : List (Operator L)
  argCount : List ℤ
  lastIsVarOrFnc : Bool

def Parser.new : Parser L := ⟨[], [], [], false⟩

/-! ## The operator stack -/

def ExpressionItem.setPos (pos : ℕ) : ExpressionItem L → ExpressionItem L
  | .jmpIf val _ => .jmpIf val pos
  | item => item

def updateJmpPos (jmpPos : Option ℕ) (output : List (ExpressionItem L)) : List (ExpressionItem L) :=
  match jmpPos with
  | some pos => output.modify pos (ExpressionItem.setPos (output.length - pos))
  | none => output

/-- A closing parenthesis or bracket: the operators down to the opening one. -/
def popClosed (paren : Bool) : List (Operator L) → List (ExpressionItem L) →
    Except String (List (Operator L) × List (ExpressionItem L))
  | (.openParen, _) :: stack, output => if paren then .ok (stack, output) else .error "Mismatched parentheses"
  | (.openBracket, _) :: stack, output => if paren then .error "Mismatched parentheses" else .ok (stack, output)
  | (.binaryOperator op, jmpPos) :: stack, output =>
    popClosed paren stack (updateJmpPos jmpPos output ++ [.binaryOperator op])
  | (.unaryOperator op, _) :: stack, output => popClosed paren stack (output ++ [.unaryOperator op])
  | _, _ => .error "Mismatched parentheses"

/-- The operators that come before a binary one. -/
def popHigher (op : BinaryOperator) : List (Operator L) → List (ExpressionItem L) →
    List (Operator L) × List (ExpressionItem L)
  | (.binaryOperator top, jmpPos) :: stack, output =>
    if op.precedence ≤ top.precedence then
      popHigher op stack (updateJmpPos jmpPos output ++ [.binaryOperator top])
    else ((.binaryOperator top, jmpPos) :: stack, output)
  | (.unaryOperator top, _) :: stack, output => popHigher op stack (output ++ [.unaryOperator top])
  | stack, output => (stack, output)

/-- A comma: the operators of an argument. -/
def popArgument : List (Operator L) → List (ExpressionItem L) → List (Operator L) × List (ExpressionItem L)
  | (.binaryOperator op, jmpPos) :: stack, output =>
    popArgument stack (updateJmpPos jmpPos output ++ [.binaryOperator op])
  | (.unaryOperator op, _) :: stack, output => popArgument stack (output ++ [.unaryOperator op])
  | stack, output => (stack, output)

/-- The end of the tokens. -/
def popAll : List (Operator L) → List (ExpressionItem L) → Except String (List (ExpressionItem L))
  | [], output => .ok output
  | (.binaryOperator op, jmpPos) :: stack, output => popAll stack (updateJmpPos jmpPos output ++ [.binaryOperator op])
  | (.unaryOperator op, _) :: stack, output => popAll stack (output ++ [.unaryOperator op])
  | _ :: _, _ => .error "Invalid token on the operator stack"

/-! ## Arguments -/

/-- One more item of an array that is being built. -/
def Operator.addItem : Operator L → Operator L
  | (.function name id numArgs, jmpPos) => (.function name id (if id = idArrayBuild then numArgs + 1 else numArgs), jmpPos)
  | operator => operator

/-- The operator below the top one, or the only one. -/
def countItem : List (Operator L) → List (Operator L)
  | [] => []
  | [top] => [top.addItem]
  | top :: below :: stack => top :: below.addItem :: stack

namespace Parser

variable (p : Parser L)

def incArgCount : Parser L :=
  match p.argCount with
  | [] => p
  | count :: counts => { p with argCount := (count + 1) :: counts, operatorStack := countItem p.operatorStack }

def decArgCount : Parser L :=
  match p.argCount with
  | [] => p
  | count :: counts => { p with argCount := (count - 1) :: counts }

/-! ## Tokens -/

def operand (item : ExpressionItem L) (isVar : Bool) : Parser L :=
  { p.incArgCount with output := p.output ++ [item], lastIsVarOrFnc := isVar }

def push (token : Token L) : Parser L :=
  { p with operatorStack := (token, none) :: p.operatorStack, lastIsVarOrFnc := false }

/-- A function, `matches` or a system variable, whose parenthesis is next. -/
def call (token : Token L) : Parser L := { p.incArgCount with argCount := 0 :: p.incArgCount.argCount }.push token

/-- What the parentheses or brackets that have been closed belong to.  The counts are never missing. -/
def callEnd : Except String (Parser L) :=
  match p.operatorStack, p.argCount with
  | (.function name id numArgs, _) :: stack, got :: counts =>
    if got ≠ numArgs then
      .error (if id ≠ idArrayAccess then
        "Expression function \"" ++ name ++ "\" expected " ++ toString numArgs ++ " arguments, got " ++ toString got
      else "Missing array index")
    else
      let item := if id = idArrayAccess then .arrayAccess
        else if id = idArrayBuild then .arrayBuild numArgs else .function id numArgs
      .ok ⟨p.output ++ [item], stack, counts, true⟩
  | (.regex regex, _) :: stack, got :: counts =>
    if got ≠ 1 then .error "Expression function \"matches\" expected 2 arguments"
    else .ok ⟨p.output ++ [.regex regex], stack, counts, true⟩
  | (.system setting, _) :: stack, got :: counts =>
    if got ≠ 0 then .error "Expression function expected 1 argument"
    else .ok ⟨p.output ++ [.system setting], stack, counts, true⟩
  | (.function _ _ _, _) :: _, [] | (.regex _, _) :: _, [] | (.system _, _) :: _, [] => .error "unwrap"
  | _, _ => .ok { p with lastIsVarOrFnc := true }

def close (paren : Bool) : Except String (Parser L) :=
  (popClosed paren p.operatorStack p.output).bind fun (stack, output) =>
    { p with operatorStack := stack, output }.callEnd

def binaryOperator (op : BinaryOperator) : Parser L :=
  let (stack, output) := popHigher op p.operatorStack p.output
  match op.jumpsIf with
  | some val =>
    { p.decArgCount with
      output := output ++ [.jmpIf val 0]
      operatorStack := (.binaryOperator op, some output.length) :: stack
      lastIsVarOrFnc := false }
  | none =>
    { p.decArgCount with output, operatorStack := (.binaryOperator op, none) :: stack, lastIsVarOrFnc := false }

/-- After a variable, a call or a closing bracket it is the index of that, and a new array otherwise. -/
def openBracket : Parser L :=
  let p' := if p.lastIsVarOrFnc then { p with argCount := 1 :: p.argCount }
    else { p.incArgCount with argCount := 0 :: p.incArgCount.argCount }
  let token : Token L := if p.lastIsVarOrFnc then .function "array" idArrayAccess 2 else .function "array" idArrayBuild 0
  (p'.push token).push .openBracket

def comma : Parser L :=
  let (stack, output) := popArgument p.operatorStack p.output
  { p with operatorStack := stack, output, lastIsVarOrFnc := false }

def step : Token L → Except String (Parser L)
  | .var v => .ok (p.operand (.var v) true)
  | .constant c => .ok (p.operand (.constant c) false)
  | .global name => .ok (p.operand (.global name) false)
  | .capture n => .ok (p.operand (.capture n) false)
  | .unaryOperator op => .ok (p.push (.unaryOperator op))
  | .openParen => .ok (p.push .openParen)
  | .closeParen => p.close true
  | .closeBracket => p.close false
  | .binaryOperator op => .ok (p.binaryOperator op)
  | .function name id numArgs => .ok (p.call (.function name id numArgs))
  | .regex r => .ok (p.call (.regex r))
  | .system s => .ok (p.call (.system s))
  | .openBracket => .ok p.openBracket
  | .comma => .ok p.comma

end Parser

def parse (tokens : List (Token L)) : Except String (List (ExpressionItem L)) :=
  (tokens.foldlM Parser.step Parser.new).bind fun p => popAll p.operatorStack p.output

end MailServer.Common.Expr
