import SigilCall.Text.Bytes
import SigilCall.Text.Class

namespace SigilCall

open Text

/-- A place in a text: its offset in bytes, and the text that is left there. -/
structure Cursor where
  pos : Nat
  rest : List Char
  deriving DecidableEq, Repr

namespace Cursor

protected def le (c d : Cursor) : Prop :=
  ∃ t, c.rest = t ++ d.rest ∧ d.pos = c.pos + byteLength t

instance : LE Cursor := ⟨Cursor.le⟩

@[simp] protected theorem le_refl (c : Cursor) : c ≤ c := ⟨[], rfl, rfl⟩

protected theorem le_trans {c d e : Cursor} (h : c ≤ d) (h' : d ≤ e) : c ≤ e := by
  obtain ⟨s, hs, hp⟩ := h
  obtain ⟨t, ht, hq⟩ := h'
  exact ⟨s ++ t, by simp [hs, ht], by simp [hq, hp, Nat.add_assoc]⟩

theorem length_le {c d : Cursor} (h : c ≤ d) : d.rest.length ≤ c.rest.length := by
  obtain ⟨t, ht, -⟩ := h
  simp [ht]

theorem pos_le {c d : Cursor} (h : c ≤ d) : c.pos ≤ d.pos := by
  obtain ⟨t, -, ht⟩ := h
  omega

def start (text : List Char) : Cursor := ⟨0, text⟩

def isAtEnd (c : Cursor) : Bool := c.rest.isEmpty

def peek? (c : Cursor) : Option Char := c.rest.head?

def next? (c : Cursor) : Option (Char × Cursor) :=
  match c.rest with
  | [] => none
  | x :: t => some (x, ⟨c.pos + x.utf8Size, t⟩)

def accept? (x : Char) (c : Cursor) : Option Cursor :=
  match c.next? with
  | none => none
  | some (y, d) => if y = x then some d else none

def skip (n : Nat) (c : Cursor) : Cursor :=
  ⟨c.pos + byteLength (c.rest.take n), c.rest.drop n⟩

def skipWhile (p : Char → Bool) (c : Cursor) : Cursor :=
  ⟨c.pos + byteLength (c.rest.takeWhile p), c.rest.dropWhile p⟩

def skipSpace : Cursor → Cursor := skipWhile isSpace

/-- The offset just past the byte at the cursor. -/
def reach (c : Cursor) : Nat := if c.isAtEnd then c.pos else c.pos + 1

theorem next?_eq_some {c d : Cursor} {x : Char} (h : c.next? = some (x, d)) :
    c.rest = x :: d.rest ∧ d.pos = c.pos + x.utf8Size := by
  obtain ⟨p, _ | ⟨y, t⟩⟩ := c
  · simp [next?] at h
  · simp only [next?, Option.some.injEq, Prod.mk.injEq] at h
    obtain ⟨rfl, rfl⟩ := h
    exact ⟨rfl, rfl⟩

theorem le_of_next? {c d : Cursor} {x : Char} (h : c.next? = some (x, d)) : c ≤ d :=
  ⟨[x], (next?_eq_some h).1, (next?_eq_some h).2⟩

theorem length_lt_of_next? {c d : Cursor} {x : Char} (h : c.next? = some (x, d)) :
    d.rest.length < c.rest.length := by
  simp [(next?_eq_some h).1]

theorem next?_of_accept? {c d : Cursor} {x : Char} (h : c.accept? x = some d) :
    c.next? = some (x, d) := by
  rw [accept?] at h
  split at h
  · cases h
  · next hb =>
      split at h
      · next hx => rw [hb, hx, Option.some.inj h]
      · cases h

theorem le_of_accept? {c d : Cursor} {x : Char} (h : c.accept? x = some d) : c ≤ d :=
  le_of_next? (next?_of_accept? h)

theorem length_lt_of_accept? {c d : Cursor} {x : Char} (h : c.accept? x = some d) :
    d.rest.length < c.rest.length := length_lt_of_next? (next?_of_accept? h)

theorem le_skip (n : Nat) (c : Cursor) : c ≤ c.skip n :=
  ⟨c.rest.take n, (List.take_append_drop n c.rest).symm, rfl⟩

theorem le_skipWhile (p : Char → Bool) (c : Cursor) : c ≤ c.skipWhile p :=
  ⟨c.rest.takeWhile p, List.takeWhile_append_dropWhile.symm, rfl⟩

theorem le_skipSpace (c : Cursor) : c ≤ c.skipSpace := le_skipWhile isSpace c

end Cursor

structure Reading (α : Type) (c : Cursor) where
  value : α
  stop : Cursor
  ahead : c ≤ stop

namespace Reading

variable {α β : Type} {c d : Cursor}

def map (f : α → β) (r : Reading α c) : Reading β c := ⟨f r.value, r.stop, r.ahead⟩

def since (h : c ≤ d) (r : Reading α d) : Reading α c :=
  ⟨r.value, r.stop, Cursor.le_trans h r.ahead⟩

end Reading

end SigilCall
