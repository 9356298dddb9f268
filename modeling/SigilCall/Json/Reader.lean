import SigilCall.Cursor.Basic
import SigilCall.Json.Error

namespace SigilCall.Json.Read

open Text

abbrev Outcome (α : Type) (c : Cursor) : Type := Except Failure (Reading α c)

/-- Most faults lie just past the byte at the cursor. -/
def fail {α : Type} (cause : Cause) (c : Cursor) : Except Failure α := .error ⟨cause, c.reach⟩

def isBlank (c : Char) : Bool := c == ' ' || c == '\t' || c == '\n' || c == '\r'

def skipBlank : Cursor → Cursor := Cursor.skipWhile isBlank

theorem le_skipBlank (c : Cursor) : c ≤ skipBlank c := c.le_skipWhile isBlank

def word (c : Cursor) : List Char → Outcome Unit c
  | [] => .ok ⟨(), c, c.le_refl⟩
  | x :: xs =>
      match h : c.next? with
      | none => fail .eofValue c
      | some (y, d) =>
          if y = x then (word d xs).map (.since (Cursor.le_of_next? h)) else fail .expectedWord c

end SigilCall.Json.Read
