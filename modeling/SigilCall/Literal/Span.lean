import SigilCall.Cursor.Basic
import SigilCall.Literal.Kind

namespace SigilCall.Literal

open Text

/-- What a quotation mark does inside a literal. In `naive` mode each one opens or closes a quoted
region; in `escaped` mode a backslash in a quoted region takes the next character with it. -/
inductive Quoting
  | naive
  | escaped
  deriving DecidableEq, Repr

inductive Region
  | plain
  | quoted
  | afterBackslash
  deriving DecidableEq, Repr

def Region.step (mode : Quoting) : Region → Char → Region
  | .plain, c => if c = '"' then .quoted else .plain
  | .quoted, c =>
      if c = '"' then .plain
      else if c = '\\' ∧ mode = .escaped then .afterBackslash
      else .quoted
  | .afterBackslash, _ => .quoted

namespace Region

variable {mode : Quoting} {c : Char}

@[simp] theorem plain_step (h : c ≠ '"') : plain.step mode c = plain := if_neg h

@[simp] theorem quoted_step (h : c ≠ '"') (hb : c ≠ '\\') : quoted.step mode c = quoted := by
  simp [step, h, hb]

end Region

def Kind.step (k : Kind) (depth : Nat) (c : Char) : Nat :=
  if c = k.opening then depth + 1 else if c = k.closing then depth - 1 else depth

namespace Kind

@[simp] theorem step_opening (k : Kind) (n : Nat) : k.step n k.opening = n + 1 := if_pos rfl

@[simp] theorem step_closing (k : Kind) (n : Nat) : k.step n k.closing = n - 1 := by
  rw [step, if_neg k.opening_ne_closing.symm, if_pos rfl]

end Kind

structure SpanState where
  region : Region
  depth : Nat
  deriving DecidableEq, Repr

namespace SpanState

def start : SpanState := ⟨.plain, 0⟩

def step (k : Kind) (mode : Quoting) (s : SpanState) (c : Char) : SpanState :=
  ⟨s.region.step mode c, if s.region = .plain then k.step s.depth c else s.depth⟩

@[simp] theorem step_plain {k : Kind} {mode : Quoting} {n : Nat} {c : Char} :
    step k mode ⟨.plain, n⟩ c = ⟨Region.plain.step mode c, k.step n c⟩ := rfl

@[simp] theorem step_of_ne {k : Kind} {mode : Quoting} {r : Region} {n : Nat} {c : Char}
    (h : r ≠ .plain) : step k mode ⟨r, n⟩ c = ⟨r.step mode c, n⟩ := by
  rw [step, if_neg h]

end SpanState

structure Span where
  text : List Char
  rest : List Char
  closed : Bool
  deriving DecidableEq, Repr

namespace Span

def scanFrom (k : Kind) (mode : Quoting) (s : SpanState) : List Char → Span
  | [] => ⟨[], [], s.depth == 0⟩
  | c :: t =>
      let s' := s.step k mode c
      if s'.depth = 0 then ⟨[c], t, true⟩
      else
        let tail := scanFrom k mode s' t
        ⟨c :: tail.text, tail.rest, tail.closed⟩

/-- The literal at the start of a text. From a place where no literal starts, one character. -/
def scan (k : Kind) (mode : Quoting) (s : List Char) : Span := scanFrom k mode .start s

@[simp] theorem scanFrom_append (k : Kind) (mode : Quoting) (s : SpanState) (t : List Char) :
    (scanFrom k mode s t).text ++ (scanFrom k mode s t).rest = t := by
  induction t generalizing s with
  | nil => rfl
  | cons c t ih => by_cases h : (s.step k mode c).depth = 0 <;> simp [scanFrom, h, ih]

@[simp] theorem scan_append (k : Kind) (mode : Quoting) (t : List Char) :
    (scan k mode t).text ++ (scan k mode t).rest = t := scanFrom_append k mode .start t

end Span

end SigilCall.Literal

namespace SigilCall.Cursor

open Literal

def skipSpan (k : Kind) (mode : Quoting) (c : Cursor) : Cursor :=
  ⟨c.pos + Text.byteLength (Span.scan k mode c.rest).text, (Span.scan k mode c.rest).rest⟩

theorem le_skipSpan (k : Kind) (mode : Quoting) (c : Cursor) : c ≤ c.skipSpan k mode :=
  ⟨(Span.scan k mode c.rest).text, (Span.scan_append k mode c.rest).symm, rfl⟩

end SigilCall.Cursor
