import SigilCall.Cursor.Raw
import SigilCall.Literal.Span

namespace SigilCall.Cursor

open Text Literal

inductive Step
  | position
  | isAtEnd
  | peek
  | next
  | accept (c : Char)
  | skipWhile (p : Char → Bool)
  | skip (n : Nat)
  | skipSpace
  | slice (start stop : Nat)
  | scanSpan (k : Kind) (mode : Quoting)
  | scanRaw
  | save
  | restore

inductive Answer
  | done
  | offset (n : Nat)
  | flag (b : Bool)
  | char? (c : Option Char)
  | text (s : List Char)
  | badSlice
  deriving DecidableEq, Repr

structure State where
  current : Cursor
  saved : List Cursor
  deriving DecidableEq, Repr

namespace State

def move (s : State) (c : Cursor) : State := { s with current := c }

/-- One step over a text. To restore with nothing saved changes nothing. -/
def step (text : List Char) (s : State) : Step → Answer × State
  | .position => (.offset s.current.pos, s)
  | .isAtEnd => (.flag s.current.isAtEnd, s)
  | .peek => (.char? s.current.peek?, s)
  | .next =>
      match s.current.next? with
      | none => (.char? none, s)
      | some (x, d) => (.char? (some x), s.move d)
  | .accept x =>
      match s.current.accept? x with
      | none => (.flag false, s)
      | some d => (.flag true, s.move d)
  | .skipWhile p => (.done, s.move (s.current.skipWhile p))
  | .skip n => (.done, s.move (s.current.skip n))
  | .skipSpace => (.done, s.move s.current.skipSpace)
  | .slice a b => ((slice? text a b).elim .badSlice .text, s)
  | .scanSpan k mode =>
      (.text (Span.scan k mode s.current.rest).text, s.move (s.current.skipSpan k mode))
  | .scanRaw => (.text s.current.rawToken, s.move s.current.skipRaw)
  | .save => (.done, { s with saved := s.current :: s.saved })
  | .restore =>
      match s.saved with
      | [] => (.done, s)
      | c :: saved => (.done, ⟨c, saved⟩)

def run (text : List Char) (s : State) : List Step → List (Answer × State)
  | [] => []
  | i :: is => s.step text i :: run text (s.step text i).2 is

end State

def script (text : List Char) : List Step → List (Answer × State) :=
  State.run text ⟨.start text, []⟩

end SigilCall.Cursor
