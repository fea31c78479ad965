import Univariate.Formula

/-!
# Sessions

A session reads lines. A line that starts with an equals sign evaluates the last function and its
derivative at the point that follows; any other line is read as a new function. A line that fails
leaves the session as it was.
-/

namespace Univariate

/-- A function that was read, with its derivative. -/
structure Entry (α : Type) where
  /-- The function. -/
  formula : Formula α
  /-- The derivative of the function. -/
  derivative : Formula α

/-- The letter and the precision of all functions, and the last function that was read. -/
structure Session (α : Type) where
  /-- The letter that the variable is written with. -/
  letter : Letter
  /-- The precision of results. -/
  decimals : Decimals
  /-- The last function that was read, if there was one. -/
  current : Option (Entry α)

/-- Why a line has no answer. -/
inductive LineError where
  /-- The line is no function. -/
  | parse (e : ParseError)
  /-- The text after an equals sign is no number. -/
  | point (e : Numeral.Malformed)
  /-- There is no function to evaluate. -/
  | noFunction
  deriving DecidableEq, Repr

/-- A failed line in one sentence. -/
def LineError.message : LineError → String
  | parse e => e.fault.message
  | point e => e.message
  | noFunction => "no function to evaluate"

/-- Why a session cannot be opened. -/
inductive ConfigError where
  /-- The precision is a number below `-1`. -/
  | invalidDecimals (e : Decimals.InvalidPrecision)
  /-- The variable is not a letter. -/
  | invalidVariable (e : NotALetter)
  deriving DecidableEq, Repr

/-- What is said about a setting that cannot be used. -/
def ConfigError.message : ConfigError → String
  | invalidDecimals e => e.message
  | invalidVariable e => e.message

namespace Session

variable {α : Type}

/-- A session that has read no function. The variable is looked at first. -/
def start (variableChar : Char) (decimals : Int) : Except ConfigError (Session α) := do
  let letter ← (Letter.ofChar variableChar).mapError .invalidVariable
  let decimals ← (Decimals.ofInt? decimals).mapError .invalidDecimals
  return ⟨letter, decimals, none⟩

/-- The line that answers with a text for a function of an argument. -/
def answerLine (name argument text : List Char) : String :=
  String.ofList (name ++ '(' :: argument ++ ")".toList ++ " = ".toList ++ text)

/-- The lines that answer with a text for a function of an argument and one for its derivative. -/
def answerLines (argument text derivativeText : List Char) : List String :=
  [answerLine ['f'] argument text, answerLine ['f', '\''] argument derivativeText]

/-- What a line does to a session: it answers or fails, and leaves a session behind. What it changed
before it failed stays changed. -/
abbrev Action (α β : Type) := ExceptT LineError (StateM (Session α)) β

variable [Scalar α] [HasNumerals α]

/-- The values of the last function and its derivative at the point that a text writes. Blanks
around the point go, and a decimal comma is read as a point. -/
def evaluateAt (s : Session α) (source : List Char) : Except LineError (List String) :=
  match s.current with
  | none => .error .noFunction
  | some entry => do
    let point := (trimBlanks source).map fun c => if c = ',' then '.' else c
    let numeral ← (Numeral.ofText point).mapError .point
    let x : α := HasNumerals.ofNumeral numeral
    return answerLines point (numberText (entry.formula.evaluate x))
      (numberText (entry.derivative.evaluate x))

variable [LawfulScalar α] [DecidableEq α]

/-- Reads a function, answers with it and its derivative, and makes it the last function. -/
def define (source : List Char) : Action α (List String) := do
  let s ← get
  let formula : Formula α ← (Formula.parse source s.letter s.decimals).mapError LineError.parse
  let derivative := formula.derivative
  let lines := answerLines [s.letter.char] formula.text derivative.text
  set { s with current := some ⟨formula, derivative⟩ }
  return lines

/-- Answers a line: at a point if the line starts with an equals sign, and as a new function
otherwise. -/
def process (line : List Char) : Action α (List String) :=
  match dropBlanks line with
  | '=' :: point => do
    let s ← get
    s.evaluateAt point
  | _ => define line

/-- The answer to a line, if there is one, and the session after it in either case. -/
def step (s : Session α) (line : List Char) : Except LineError (List String) × Session α :=
  (process line).run.run s

end Session

end Univariate
