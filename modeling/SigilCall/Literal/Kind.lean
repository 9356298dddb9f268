namespace SigilCall.Literal

inductive Kind
  | object
  | array
  deriving DecidableEq, Repr

namespace Kind

def opening : Kind → Char
  | object => '{'
  | array => '['

def closing : Kind → Char
  | object => '}'
  | array => ']'

def name : Kind → String
  | object => "object"
  | array => "array"

def ofOpening? (c : Char) : Option Kind :=
  if c = '{' then some object else if c = '[' then some array else none

theorem ofOpening?_eq_some_iff {c : Char} {k : Kind} : ofOpening? c = some k ↔ c = k.opening := by
  rw [ofOpening?]
  cases k <;> split <;> simp_all [opening]

theorem opening_injective {k k' : Kind} (h : k.opening = k'.opening) : k = k' :=
  Option.some.inj ((ofOpening?_eq_some_iff.mpr rfl).symm.trans (ofOpening?_eq_some_iff.mpr h))

theorem opening_ne_dollar (k : Kind) : k.opening ≠ '$' := by
  cases k <;> decide

@[simp] theorem opening_ne_closing (k : Kind) : k.opening ≠ k.closing := by
  cases k <;> decide

@[simp] theorem opening_ne_mark (k : Kind) : k.opening ≠ '"' := by
  cases k <;> decide

@[simp] theorem closing_ne_mark (k : Kind) : k.closing ≠ '"' := by
  cases k <;> decide

end Kind

end SigilCall.Literal
