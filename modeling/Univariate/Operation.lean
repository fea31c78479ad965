/-!
# Operations

The closed set of operations that an expression can contain, split by the number of their
operands, with the way each is written and how tightly it binds. A node that holds an operation
with the wrong number of operands cannot be formed.
-/

namespace Univariate

/-- How tightly an operation binds its operands, from the tightest to the loosest. -/
inductive Precedence where
  /-- Functions, whose arguments stand in brackets. -/
  | function
  /-- `^` -/
  | power
  /-- `*` and `/` -/
  | product
  /-- `+` and `-` -/
  | sum
  deriving DecidableEq, Repr

/-- The rank of a precedence; the tightest has rank zero. -/
def Precedence.level : Precedence → Nat
  | .function => 0
  | .power => 1
  | .product => 2
  | .sum => 3

/-- Whether `p` binds looser than `q`. -/
def Precedence.looserThan (p q : Precedence) : Bool := q.level < p.level

/-- The three ways in which an operation is written. -/
inductive Form where
  /-- A symbol between two operands, as in `a + b`. -/
  | operator
  /-- A keyword before one bracketed argument, as in `sin(a)`. -/
  | oneArgument
  /-- A keyword before two bracketed arguments that a semicolon separates, as in `log(a; b)`. -/
  | twoArguments
  deriving DecidableEq, Repr

/-- The operations on one operand. -/
inductive UnaryOp where
  | sine
  | cosine
  | tangent
  deriving DecidableEq, Repr

/-- The operations on two operands. The first operand of a logarithm is its argument and the second
its base; the first operand of a root is its radicand and the second its degree. -/
inductive BinaryOp where
  | addition
  | subtraction
  | multiplication
  | division
  | power
  | logarithm
  | root
  deriving DecidableEq, Repr

/-- An operation on one or on two operands. -/
inductive Operation where
  | unary (op : UnaryOp)
  | binary (op : BinaryOp)
  deriving DecidableEq, Repr

namespace UnaryOp

/-- The keyword of a function of one argument. -/
def symbol : UnaryOp → List Char
  | sine => ['s', 'i', 'n']
  | cosine => ['c', 'o', 's']
  | tangent => ['t', 'g']

/-- The name of a function of one argument. -/
def name : UnaryOp → String
  | sine => "Sine"
  | cosine => "Cosine"
  | tangent => "Tangent"

end UnaryOp

namespace BinaryOp

/-- The operator or keyword of an operation on two operands. -/
def symbol : BinaryOp → List Char
  | addition => ['+']
  | subtraction => ['-']
  | multiplication => ['*']
  | division => ['/']
  | power => ['^']
  | logarithm => ['l', 'o', 'g']
  | root => ['n', 'r', 't']

/-- The name of an operation on two operands. -/
def name : BinaryOp → String
  | addition => "Addition"
  | subtraction => "Subtraction"
  | multiplication => "Multiplication"
  | division => "Division"
  | power => "Exponentiation"
  | logarithm => "Logarithm"
  | root => "NRoot"

/-- How tightly an operation on two operands binds them. -/
def precedence : BinaryOp → Precedence
  | addition | subtraction => .sum
  | multiplication | division => .product
  | power => .power
  | logarithm | root => .function

/-- Whether the operation is written between its operands. -/
def isOperator : BinaryOp → Bool
  | logarithm | root => false
  | _ => true

/-- Whether a right operand of the same precedence needs no brackets: `a + (b - c)` has the value
of `(a + b) - c`, but `a - (b + c)` has not that of `(a - b) + c`. -/
def regroupsRight : BinaryOp → Bool
  | addition | multiplication => true
  | _ => false

/-- The operation that a single character between two operands stands for. -/
def ofOperator? : Char → Option BinaryOp
  | '+' => some addition
  | '-' => some subtraction
  | '*' => some multiplication
  | '/' => some division
  | '^' => some power
  | _ => none

end BinaryOp

namespace Operation

/-- Every operation. -/
def all : List Operation :=
  [.binary .addition, .binary .subtraction, .binary .multiplication, .binary .division,
    .binary .power, .binary .logarithm, .binary .root, .unary .sine, .unary .cosine,
    .unary .tangent]

/-- The operator or keyword of an operation. -/
def symbol : Operation → List Char
  | unary op => op.symbol
  | binary op => op.symbol

/-- The name of an operation. -/
def name : Operation → String
  | unary op => op.name
  | binary op => op.name

/-- How tightly an operation binds its operands. -/
def precedence : Operation → Precedence
  | unary _ => .function
  | binary op => op.precedence

/-- The way an operation is written. -/
def form : Operation → Form
  | unary _ => .oneArgument
  | binary op => if op.isOperator then .operator else .twoArguments

/-- The operation, if it is written between its operands. -/
def operator? : Operation → Option BinaryOp
  | unary _ => none
  | binary op => if op.isOperator then some op else none

/-- Whether the operation is written as a keyword before bracketed arguments. -/
def isKeyword (op : Operation) : Bool := op.form != .operator

/-- Whether the operation takes two operands. -/
def isBinary : Operation → Bool
  | unary _ => false
  | binary _ => true

/-- Whether brackets around a right operand of the same precedence can be left out. -/
def regroupsRight : Operation → Bool
  | unary _ => false
  | binary op => op.regroupsRight

/-- The operation written with a given symbol. -/
def ofSymbol? (symbol : List Char) : Option Operation :=
  all.find? fun op => op.symbol = symbol

/-- The operation with a given name. -/
def ofName? (name : String) : Option Operation :=
  all.find? fun op => op.name = name

/-- An operation was given the wrong number of operands. -/
inductive ArityError where
  /-- An operation on two operands was given one. -/
  | notUnary (op : BinaryOp)
  /-- A function of one argument was given two operands. -/
  | notBinary (op : UnaryOp)
  deriving DecidableEq, Repr

/-- What is said about an operation with the wrong number of operands. -/
def ArityError.message : ArityError → String
  | notUnary op => "`" ++ op.name ++ "` does not take a single operand"
  | notBinary op => "`" ++ op.name ++ "` does not take two operands"

/-- The operation as one on a single operand. -/
def toUnary : Operation → Except ArityError UnaryOp
  | unary op => .ok op
  | binary op => .error (.notUnary op)

/-- The operation as one on two operands. -/
def toBinary : Operation → Except ArityError BinaryOp
  | unary op => .error (.notBinary op)
  | binary op => .ok op

/-- A symbol belongs to one operation only. -/
theorem ofSymbol?_symbol (op : Operation) : ofSymbol? op.symbol = some op := by
  rcases op with op | op <;> cases op <;> decide

/-- The operators are the symbols of the operations that are written between their operands. -/
theorem ofOperator?_eq_some_iff {c : Char} {op : BinaryOp} :
    BinaryOp.ofOperator? c = some op ↔ op.isOperator = true ∧ op.symbol = [c] := by
  constructor
  · intro h
    unfold BinaryOp.ofOperator? at h
    split at h <;> simp_all <;> subst h <;> decide
  · rintro ⟨hop, hsymbol⟩
    cases op <;> simp_all [BinaryOp.isOperator, BinaryOp.symbol] <;> subst hsymbol <;> rfl

end Operation

end Univariate
