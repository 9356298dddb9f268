import SigilCall.Json.Decode
import SigilCall.Json.Grammar

namespace SigilCall.Json

open Json.Read Literal

def WritesUnit (s : List Char) (n : Nat) : Prop := s.length = 4 ∧ hexValue? s = some n

inductive WritesChar : List Char → Char → Prop
  | plain {c : Char} : c ≠ '"' → c ≠ '\\' → 0x20 ≤ c.toNat → WritesChar [c] c
  | escape {x c : Char} : escaped? x = some c → WritesChar ['\\', x] c
  | unicode {s : List Char} {n : Nat} : WritesUnit s n → isTrailing n = false →
      isLeading n = false → WritesChar ('\\' :: 'u' :: s) (.ofNat n)
  | pair {s t : List Char} {n m : Nat} : WritesUnit s n → isTrailing n = false →
      isLeading n = true → WritesUnit t m → isTrailing m = true →
      WritesChar ('\\' :: 'u' :: (s ++ '\\' :: 'u' :: t))
        (.ofNat (0x10000 + 0x400 * (n - 0xd800) + (m - 0xdc00)))

inductive WritesChars : List Char → List Char → Prop
  | nil : WritesChars [] []
  | cons {s t : List Char} {c : Char} {cs : List Char} : WritesChar s c → WritesChars t cs →
      WritesChars (s ++ t) (c :: cs)

inductive WritesFraction : List Char → List Char → Prop
  | none : WritesFraction [] []
  | point {ds : List Char} : IsDigits ds → WritesFraction ('.' :: ds) ds

inductive WritesExponent : List Char → Option Exponent → Prop
  | none : WritesExponent [] none
  | unsigned {e : Char} {ds : List Char} : e = 'e' ∨ e = 'E' → IsDigits ds →
      WritesExponent (e :: ds) (some ⟨false, ds⟩)
  | plus {e : Char} {ds : List Char} : e = 'e' ∨ e = 'E' → IsDigits ds →
      WritesExponent (e :: '+' :: ds) (some ⟨false, ds⟩)
  | minus {e : Char} {ds : List Char} : e = 'e' ∨ e = 'E' → IsDigits ds →
      WritesExponent (e :: '-' :: ds) (some ⟨true, ds⟩)

def IsWhole (w : List Char) : Prop := IsDigits w ∧ (w.head? = some '0' → w = ['0'])

inductive WritesNumeral : List Char → Numeral → Prop
  | positive {w f e ds : List Char} {x : Option Exponent} : IsWhole w → WritesFraction f ds →
      WritesExponent e x → WritesNumeral (w ++ (f ++ e)) ⟨false, w, ds, x⟩
  | negative {w f e ds : List Char} {x : Option Exponent} : IsWhole w → WritesFraction f ds →
      WritesExponent e x → WritesNumeral ('-' :: (w ++ (f ++ e))) ⟨true, w, ds, x⟩

mutual

/-- The value that a text writes, with no more than a number of brackets open at a time. This is the
grammar of values with the values filled in. -/
inductive Writes : Nat → List Char → Json → Prop
  | null {n : Nat} : Writes n ['n', 'u', 'l', 'l'] .null
  | true {n : Nat} : Writes n ['t', 'r', 'u', 'e'] (.bool true)
  | false {n : Nat} : Writes n ['f', 'a', 'l', 's', 'e'] (.bool false)
  | number {n : Nat} {s : List Char} {x : Numeral} {y : Number} : WritesNumeral s x →
      x.number? = some y → Writes n s (.number y)
  | string {n : Nat} {s cs : List Char} : WritesChars s cs →
      Writes n ('"' :: (s ++ ['"'])) (.string (.ofList cs))
  | emptyArray {n : Nat} {b : List Char} : IsBlank b → Writes (n + 1) ('[' :: (b ++ [']'])) (.array [])
  | array {n : Nat} {s : List Char} {vs : List Json} : WritesItems n s vs →
      Writes (n + 1) ('[' :: (s ++ [']'])) (.array vs)
  | emptyObject {n : Nat} {b : List Char} : IsBlank b →
      Writes (n + 1) ('{' :: (b ++ ['}'])) (.object [])
  | object {n : Nat} {s : List Char} {es : List (String × Json)} : WritesEntries n s es →
      Writes (n + 1) ('{' :: (s ++ ['}'])) (.object (collect es))

inductive WritesElement : Nat → List Char → Json → Prop
  | mk {n : Nat} {b s b' : List Char} {v : Json} : IsBlank b → Writes n s v → IsBlank b' →
      WritesElement n (b ++ (s ++ b')) v

inductive WritesItems : Nat → List Char → List Json → Prop
  | one {n : Nat} {s : List Char} {v : Json} : WritesElement n s v → WritesItems n s [v]
  | more {n : Nat} {s t : List Char} {v : Json} {vs : List Json} : WritesElement n s v →
      WritesItems n t vs → WritesItems n (s ++ ',' :: t) (v :: vs)

inductive WritesEntry : Nat → List Char → String × Json → Prop
  | mk {n : Nat} {b s cs b' t : List Char} {v : Json} : IsBlank b → WritesChars s cs → IsBlank b' →
      WritesElement n t v →
      WritesEntry n (b ++ (('"' :: (s ++ ['"'])) ++ (b' ++ ':' :: t))) (.ofList cs, v)

inductive WritesEntries : Nat → List Char → List (String × Json) → Prop
  | one {n : Nat} {s : List Char} {e : String × Json} : WritesEntry n s e → WritesEntries n s [e]
  | more {n : Nat} {s t : List Char} {e : String × Json} {es : List (String × Json)} :
      WritesEntry n s e → WritesEntries n t es → WritesEntries n (s ++ ',' :: t) (e :: es)

end

theorem isFraction_of_writesFraction {f ds : List Char} (h : WritesFraction f ds) : IsFraction f := by
  cases h with
  | none => exact .none
  | point h => exact .point h

theorem isExponent_of_writesExponent {e : List Char} {x : Option Exponent}
    (h : WritesExponent e x) : IsExponent e := by
  cases h with
  | none => exact .none
  | unsigned he h => exact .unsigned he h
  | plus he h => exact .signed he (.inl rfl) h
  | minus he h => exact .signed he (.inr rfl) h

theorem isNumber_of_writesNumeral {s : List Char} {x : Numeral} (h : WritesNumeral s x) :
    IsNumber s := by
  cases h with
  | positive hw hf he =>
      exact .positive (.mk hw.1 hw.2 (isFraction_of_writesFraction hf) (isExponent_of_writesExponent he))
  | negative hw hf he =>
      exact .negative (.mk hw.1 hw.2 (isFraction_of_writesFraction hf) (isExponent_of_writesExponent he))

theorem isSome_hexDigit?_of_hexValue? {s : List Char} {n : Nat} (h : hexValue? s = some n) :
    ∀ c ∈ s, (hexDigit? c).isSome = true := by
  rw [hexValue?] at h
  generalize 0 = m at h
  induction s generalizing m with
  | nil => simp
  | cons x s ih =>
      rw [List.foldlM_cons] at h
      cases hx : hexDigit? x with
      | none => simp [hx] at h
      | some d =>
          simp only [hx, Option.map_some, Option.bind_eq_bind, Option.bind_some] at h
          intro c hc
          rcases List.mem_cons.mp hc with rfl | hc
          · simp [hx]
          · exact ih _ h c hc

theorem isQuoted_of_writesUnit {h s : List Char} {n : Nat} {mode : Quoting} (hu : WritesUnit h n)
    (hs : IsQuoted mode s) : IsQuoted mode ('\\' :: 'u' :: (h ++ s)) :=
  .unicode hu.1 (isSome_hexDigit?_of_hexValue? hu.2) hs

theorem isQuoted_of_writesChars {s cs : List Char} (h : WritesChars s cs) : IsQuoted .escaped s := by
  induction h with
  | nil => exact .nil
  | @cons s t c cs hc _ ih =>
      cases hc with
      | plain hq hb hl => exact .char hq hb hl ih
      | escape hx => exact .escape (by simp [hx]) (fun _ => rfl) ih
      | unicode hu _ _ => exact isQuoted_of_writesUnit hu ih
      | pair hu _ _ hv _ =>
          simp only [List.cons_append, List.append_assoc]
          exact isQuoted_of_writesUnit hu (isQuoted_of_writesUnit hv ih)

mutual

theorem isValue_of_writes {n : Nat} {s : List Char} {v : Json} (h : Writes n s v) :
    IsValue .escaped s := by
  match h with
  | .null => exact .null
  | .true => exact .true
  | .false => exact .false
  | .number h _ => exact .number (isNumber_of_writesNumeral h)
  | .string h => exact .string (.mk (isQuoted_of_writesChars h))
  | .emptyArray h => exact .emptyArray h
  | .array h => exact .array (isItems_of_writesItems h)
  | .emptyObject h => exact .emptyObject h
  | .object h => exact .object (isEntries_of_writesEntries h)

theorem isElement_of_writesElement {n : Nat} {s : List Char} {v : Json} (h : WritesElement n s v) :
    IsElement .escaped s := by
  match h with
  | .mk hb h hb' => exact .mk hb (isValue_of_writes h) hb'

theorem isItems_of_writesItems {n : Nat} {s : List Char} {vs : List Json} (h : WritesItems n s vs) :
    IsItems .escaped s := by
  match h with
  | .one h => exact .one (isElement_of_writesElement h)
  | .more h ht => exact .more (isElement_of_writesElement h) (isItems_of_writesItems ht)

theorem isEntry_of_writesEntry {n : Nat} {s : List Char} {e : String × Json}
    (h : WritesEntry n s e) : IsEntry .escaped s := by
  match h with
  | .mk hb hk hb' h =>
      exact .mk hb (.mk (isQuoted_of_writesChars hk)) hb' (isElement_of_writesElement h)

theorem isEntries_of_writesEntries {n : Nat} {s : List Char} {es : List (String × Json)}
    (h : WritesEntries n s es) : IsEntries .escaped s := by
  match h with
  | .one h => exact .one (isEntry_of_writesEntry h)
  | .more h ht => exact .more (isEntry_of_writesEntry h) (isEntries_of_writesEntries ht)

end

end SigilCall.Json
