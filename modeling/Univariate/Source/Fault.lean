import Univariate.Operation

/-!
# Faults in a source text

A source text that is no expression has one fault, at one character of the text. Positions count
characters from the start of the text.
-/

namespace Univariate

/-- The characters of a source text from `start` up to but not including `stop`. -/
structure Span where
  /-- The position of the first character. -/
  start : Nat
  /-- The position after the last character. -/
  stop : Nat
  deriving DecidableEq, Repr

namespace Span

/-- The single character at a position. -/
def single (position : Nat) : Span := ⟨position, position + 1⟩

/-- The character at a position of a text that ends at `stop`, or nothing at the end of the text. -/
def within (stop position : Nat) : Span :=
  if position < stop then single position else ⟨position, position⟩

/-- A span moved to the right. -/
def shift (distance : Nat) (s : Span) : Span := ⟨s.start + distance, s.stop + distance⟩

end Span

/-- What is wrong with a source text. -/
inductive Fault where
  /-- A bracket has no partner. -/
  | unbalancedBracket (opening : Bool)
  /-- A character cannot stand where it does. -/
  | unexpectedCharacter (c : Char)
  /-- An operator or a function has nothing to be applied to. -/
  | missingOperand
  /-- A function of two arguments was given one. -/
  | missingSeparator (function : BinaryOp)
  deriving DecidableEq, Repr

namespace Fault

/-- A fault in one sentence. -/
def message : Fault → String
  | unbalancedBracket _ => "unbalanced brackets"
  | unexpectedCharacter c => "unexpected character `" ++ c.toString ++ "`"
  | missingOperand => "missing operand"
  | missingSeparator function =>
    "`" ++ String.ofList function.symbol ++ "` takes two arguments"

/-- What is said about the place of a fault. -/
def label : Fault → String
  | unbalancedBracket true => "this bracket is never closed"
  | unbalancedBracket false => "this bracket does not close anything"
  | unexpectedCharacter _ => "I could not understand this character"
  | missingOperand => "I expected to see an expression here"
  | missingSeparator _ => "this function needs a second argument"

/-- How a fault can be mended. -/
def help? : Fault → Option String
  | unbalancedBracket true => some "add a closing `)` after the bracketed expression"
  | unbalancedBracket false => some "remove it, or add an opening `(` before it"
  | unexpectedCharacter _ =>
    some ("expressions may only contain numbers, the variable, + - * / ^ ( ) ; " ++
      "and the functions sin cos tg log nrt")
  | missingOperand => none
  | missingSeparator function =>
    some ("separate the arguments with a `;`, as in " ++ String.ofList function.symbol ++
      "(x; 2)")

end Fault

/-- A fault with the places of the source text that it is about. -/
structure ParseError where
  /-- What is wrong. -/
  fault : Fault
  /-- Where it is wrong. -/
  spans : List Span
  deriving DecidableEq, Repr

namespace ParseError

/-- A fault at a single character. -/
def atPosition (fault : Fault) (position : Nat) : ParseError := ⟨fault, [.single position]⟩

/-- The position that an error points at: the start of its first place, or of the text. -/
def offset (e : ParseError) : Nat :=
  match e.spans with
  | [] => 0
  | s :: _ => s.start

/-- An error about a part of a text as an error about a text in which that part starts further to
the right. -/
def shift (distance : Nat) (e : ParseError) : ParseError :=
  ⟨e.fault, e.spans.map (Span.shift distance)⟩

/-- The character that an error is about, if it is about a single one. -/
def offending? (e : ParseError) : Option Char :=
  match e.fault with
  | .unexpectedCharacter c => some c
  | _ => none

end ParseError

end Univariate
