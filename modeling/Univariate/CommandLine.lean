import Univariate.Session

/-!
# The command line

The program takes a variable and a precision as arguments and answers the lines of its standard
input one by one. Blank lines are skipped. Lines that fail are reported and the program goes on; a
line that is not UTF-8 ends it. Arguments that cannot be used are reported, but the program breaks
off at an argument that is not UTF-8.
-/

namespace Univariate.CommandLine

/-- Why a text is no precision. -/
inductive DigitsError where
  | empty
  | invalidDigit
  | tooLarge
  | tooSmall
  deriving DecidableEq, Repr

/-- What is said about a text that is no precision. -/
def DigitsError.message : DigitsError → String
  | empty => "cannot parse integer from empty string"
  | invalidDigit => "invalid digit found in string"
  | tooLarge => "number too large to fit in target type"
  | tooSmall => "number too small to fit in target type"

/-- The integer that digits continue from `n`. The first character that is no digit, or that takes
the integer out of the range of 32 bits, decides the error. -/
def readDigits (negative : Bool) (n : Int) : List Char → Except DigitsError Int
  | [] => .ok n
  | c :: cs =>
    if c.isDigit then
      let digit : Int := Decimal.digitValue c
      let next := if negative then 10 * n - digit else 10 * n + digit
      if next < -2147483648 then .error .tooSmall
      else if 2147483647 < next then .error .tooLarge
      else readDigits negative next cs
    else .error .invalidDigit

/-- The integer of 32 bits that a text writes, with an optional sign. -/
def readInt : List Char → Except DigitsError Int
  | [] => .error .empty
  | [c] => if c = '+' || c = '-' then .error .invalidDigit else readDigits false 0 [c]
  | '-' :: cs => readDigits true 0 cs
  | '+' :: cs => readDigits false 0 cs
  | cs => readDigits false 0 cs

/-- Why the program does not start. -/
inductive UsageError where
  /-- The first argument is not a single character. -/
  | notSingle (argument : String)
  /-- The second argument is no integer. -/
  | notDigits (argument : String) (e : DigitsError)
  /-- The arguments cannot be used as settings. -/
  | config (e : ConfigError)
  deriving DecidableEq, Repr

/-- What is said about arguments that cannot be used. -/
def UsageError.message : UsageError → String
  | notSingle argument => "the variable must be a single letter, found `" ++ argument ++ "`"
  | notDigits argument e => "invalid precision `" ++ argument ++ "`: " ++ e.message
  | config e => e.message

/-- The text that bytes encode in UTF-8. -/
def decode? (bytes : List UInt8) : Option String := String.fromUTF8? ⟨bytes.toArray⟩

/-- The arguments that follow the name of the program. The system passes bytes, which need not be
UTF-8. -/
structure Arguments where
  /-- The bytes of each argument. -/
  bytes : List (List UInt8)
  deriving DecidableEq, Repr

/-- Why the program does not start. -/
inductive StartError where
  /-- An argument that was looked at is not UTF-8. -/
  | notText (argument : List UInt8)
  /-- The arguments cannot be used. -/
  | usage (e : UsageError)
  deriving DecidableEq, Repr

namespace Arguments

/-- Texts as arguments. -/
def ofTexts (texts : List String) : Arguments := ⟨texts.map fun text => text.toUTF8.data.toList⟩

instance : Coe (List String) Arguments := ⟨ofTexts⟩

/-- The text of an argument, if there is one. Arguments are decoded when they are looked at. -/
def text? (arguments : Arguments) (i : Nat) : Except StartError (Option String) :=
  match arguments.bytes[i]? with
  | none => .ok none
  | some bytes =>
    match decode? bytes with
    | none => .error (.notText bytes)
    | some text => .ok (some text)

end Arguments

/-- The variable that the arguments ask for, `x` if there are none. -/
def variableOf (arguments : Arguments) : Except StartError Char := do
  match ← arguments.text? 0 with
  | none => return 'x'
  | some argument =>
    match argument.toList with
    | [c] => return c
    | _ => .error (.usage (.notSingle argument))

/-- The precision that the arguments ask for, ten digits if they ask for none. -/
def decimalsOf (arguments : Arguments) : Except StartError Int := do
  match ← arguments.text? 1 with
  | none => return 10
  | some argument => (readInt argument.toList).mapError fun e => .usage (.notDigits argument e)

/-- The session that the arguments ask for. The second argument is looked at if the first is a
single character, and arguments after the second are ignored. -/
def sessionOf {α : Type} (arguments : Arguments) : Except StartError (Session α) := do
  let variableChar ← variableOf arguments
  let decimals ← decimalsOf arguments
  (Session.start variableChar decimals).mapError fun e => .usage (.config e)

/-- The parts of an input between its newlines. A newline at the end of the input ends the last
line, and a carriage return before a newline is part of it. -/
def linesAfter (read : List UInt8) : List UInt8 → List (List UInt8)
  | [] => if read.isEmpty then [] else [read.reverse]
  | b :: bs =>
    if b = 10 then
      let line := match read with
        | 13 :: before => before
        | _ => read
      line.reverse :: linesAfter [] bs
    else linesAfter (b :: read) bs

/-- The lines of an input. -/
def linesOf (input : List UInt8) : List (List UInt8) := linesAfter [] input

/-- How a run of the program ends. -/
inductive Ending where
  /-- All of the input was answered. -/
  | finished
  /-- The run failed, with its last lines on standard error. -/
  | failed (lines : List String)
  /-- The program broke off. -/
  | aborted
  deriving DecidableEq, Repr

/-- The exit code of a run that ends in some way. -/
def Ending.code : Ending → UInt32
  | finished => 0
  | failed _ => 1
  | aborted => 101

/-- What a run of the program says. -/
structure Outcome where
  /-- The lines on standard output. -/
  printed : List String
  /-- The errors that were reported, in order. -/
  reports : List String
  /-- How the run ended. -/
  ending : Ending
  deriving DecidableEq, Repr

namespace Outcome

/-- A run that has said nothing. -/
def silent : Outcome := ⟨[], [], .finished⟩

/-- The exit code of a run. -/
def code (o : Outcome) : UInt32 := o.ending.code

/-- The last lines on standard error, if the run did not answer all of its input. A run that breaks
off has none of its own. -/
def failure (o : Outcome) : Option (List String) :=
  match o.ending with
  | .finished => none
  | .failed lines => some lines
  | .aborted => some []

/-- A run after one more answered line. -/
def afterAnswer (answer : Except LineError (List String)) (o : Outcome) : Outcome :=
  match answer with
  | .ok lines => { o with printed := lines ++ o.printed }
  | .error e => { o with reports := e.message :: o.reports }

end Outcome

variable {α : Type} [Scalar α] [HasNumerals α] [LawfulScalar α] [DecidableEq α]

/-- Answers the lines of an input one by one. -/
def answer (s : Session α) : List (List UInt8) → Outcome
  | [] => .silent
  | line :: rest =>
    match decode? line with
    | none => { Outcome.silent with ending := .failed ["stream did not contain valid UTF-8"] }
    | some text =>
      if text.toList.all isBlank then answer s rest
      else
        let (result, next) := s.step text.toList
        (answer next rest).afterAnswer result

/-- A run of the program with arguments and an input. -/
def run (α : Type) [Scalar α] [HasNumerals α] [LawfulScalar α] [DecidableEq α]
    (arguments : Arguments) (input : List UInt8) : Outcome :=
  match sessionOf (α := α) arguments with
  | .error (.notText _) => { Outcome.silent with ending := .aborted }
  | .error (.usage e) =>
    { Outcome.silent with
      ending := .failed ["error: " ++ e.message, "usage: deriv [variable] [decimals]"] }
  | .ok session => answer session (linesOf input)

end Univariate.CommandLine
