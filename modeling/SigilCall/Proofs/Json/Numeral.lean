import SigilCall.Proofs.Json.Reading
import SigilCall.Proofs.Json.Writes

namespace SigilCall.Json

open Text

def isNumberTail (c : Char) : Bool := c.isDigit || c == '.' || c == 'e' || c == 'E'

namespace Read

variable {c d e : Cursor} {s t w f g ds : List Char} {x : Char}

theorem isDigits_of_digits {r : Reading (List Char) c} (h : digits c = .ok r) :
    c.Passes r.value r.stop ∧ IsDigits r.value ∧ Halts Char.isDigit r.stop.rest := by
  rw [digits] at h
  split at h
  · cases h
  · next hn =>
      cases h
      refine ⟨c.passes_skipWhile _, ⟨?_, List.all_eq_true.mp List.all_takeWhile⟩, c.halts_skipWhile _⟩
      simpa using hn

theorem digits_of_isDigits (h : IsDigits ds) (hp : c.Passes ds d) (hd : Halts Char.isDigit d.rest) :
    Yields (digits c) ds d := by
  have ht := Cursor.takeWhile_eq hp h.2 hd
  refine ⟨hp.le, ?_⟩
  rw [digits]
  simp only [ht, Cursor.skipWhile_eq hp h.2 hd, List.isEmpty_iff, if_neg h.1]

/-- Digits of which the first is a zero that no digit follows are that zero alone. -/
theorem isWhole_of_isDigits (h : IsDigits w)
    (hs : ∀ x t, w ++ s = '0' :: x :: t → x.isDigit = false) : IsWhole w := by
  refine ⟨h, fun h0 => ?_⟩
  obtain _ | ⟨y, _ | ⟨x, w⟩⟩ := w
  · cases h0
  · rw [Option.some.inj h0]
  · obtain rfl := Option.some.inj h0
    have hx := hs x (w ++ s) rfl
    rw [h.2 x (by simp)] at hx
    cases hx

theorem isWhole_of_wholeDigits {r : Reading (List Char) c} (h : wholeDigits c = .ok r) :
    c.Passes r.value r.stop ∧ IsWhole r.value := by
  rw [wholeDigits] at h
  split at h
  · next x t hr =>
      split at h
      · cases h
      · next hx =>
          obtain ⟨hp, hd, -⟩ := isDigits_of_digits h
          refine ⟨hp, isWhole_of_isDigits (s := r.stop.rest) hd fun y u hy => ?_⟩
          rw [← hp.1, hr] at hy
          cases hy
          simpa using hx
  · next hne =>
      obtain ⟨hp, hd, -⟩ := isDigits_of_digits h
      exact ⟨hp, isWhole_of_isDigits hd fun y u hy => absurd (hp.1.trans hy) (hne y u)⟩

theorem wholeDigits_of_isWhole (h : IsWhole w) (hp : c.Passes w d) (hd : Halts Char.isDigit d.rest) :
    Yields (wholeDigits c) w d := by
  rw [wholeDigits]
  split
  · next x t hr =>
      split
      · next hx =>
          rw [hp.1] at hr
          obtain _ | ⟨y, w⟩ := w
          · exact absurd rfl h.1.1
          · obtain ⟨rfl, ht⟩ := List.cons.inj hr
            obtain rfl : w = [] := (List.cons.inj (h.2 rfl)).2
            have ht' : d.rest = x :: t := ht
            rw [ht', halts_cons, hx] at hd
            cases hd
      · exact digits_of_isDigits h.1 hp hd
  · exact digits_of_isDigits h.1 hp hd

theorem writesFraction_of_fractionDigits {r : Reading (List Char) c} (h : fractionDigits c = .ok r) :
    ∃ t, c.Passes t r.stop ∧ WritesFraction t r.value := by
  rw [fractionDigits] at h
  split at h
  · cases h
    exact ⟨[], c.passes_nil, .none⟩
  · next d hd =>
      obtain ⟨r', hr, rfl⟩ := Except.map_eq_ok_iff.mp h
      obtain ⟨hp, hds, -⟩ := isDigits_of_digits hr
      exact ⟨_, (Cursor.accept?_eq_some_iff.mp hd).trans hp, .point hds⟩

theorem fractionDigits_of_writesFraction (h : WritesFraction t ds) (hp : c.Passes t d)
    (hd : Halts (fun x => x.isDigit || x == '.') d.rest) : Yields (fractionDigits c) ds d := by
  rw [fractionDigits]
  cases h with
  | none =>
      obtain rfl := hp.eq_of_nil
      split
      · exact ⟨_, rfl⟩
      · next e he =>
          have hh := hd '.' (by rw [(Cursor.accept?_eq_some_iff.mp he).1]; rfl)
          cases hh
  | point hds =>
      obtain ⟨e, he, hp'⟩ := hp.split_cons
      obtain ⟨h₁, e₁⟩ := digits_of_isDigits hds hp' (hd.mono fun x hx => by simp [hx])
      split
      · next hn =>
          rw [Cursor.accept?_eq_some_iff.mpr he] at hn
          cases hn
      · next e' hn =>
          rw [Cursor.accept?_eq_some_iff.mpr he] at hn
          cases hn
          rw [e₁]
          exact ⟨hp.le, rfl⟩

theorem passes_minus (c : Cursor) :
    c.Passes (if (minus c).value then ['-'] else []) (minus c).stop := by
  rw [minus]
  split
  · exact c.passes_nil
  · next d hd => exact Cursor.accept?_eq_some_iff.mp hd

theorem minus_of_passes (h : c.Passes ['-'] d) : minus c = ⟨true, d, h.le⟩ := by
  rw [minus]
  split
  · next hn =>
      rw [Cursor.accept?_eq_some_iff.mpr h] at hn
      cases hn
  · next e hn =>
      rw [Cursor.accept?_eq_some_iff.mpr h] at hn
      cases hn
      rfl

theorem minus_of_ne (h : c.peek? ≠ some '-') : minus c = ⟨false, c, c.le_refl⟩ := by
  rw [minus]
  split
  · rfl
  · next e hn =>
      rw [Cursor.accept?_eq_none_iff.mpr h] at hn
      cases hn

theorem passes_sign (c : Cursor) :
    ∃ s, c.Passes s (sign c).stop ∧
      ((sign c).value = false ∧ (s = [] ∨ s = ['+']) ∨ (sign c).value = true ∧ s = ['-']) := by
  rw [sign]
  split
  · refine ⟨_, passes_minus c, ?_⟩
    cases (minus c).value <;> simp
  · next d hd => exact ⟨['+'], Cursor.accept?_eq_some_iff.mp hd, .inl ⟨rfl, .inr rfl⟩⟩

theorem sign_of_plus (h : c.Passes ['+'] d) : sign c = ⟨false, d, h.le⟩ := by
  rw [sign]
  split
  · next hn =>
      rw [Cursor.accept?_eq_some_iff.mpr h] at hn
      cases hn
  · next e hn =>
      rw [Cursor.accept?_eq_some_iff.mpr h] at hn
      cases hn
      rfl

theorem sign_of_ne (h : c.peek? ≠ some '+') : sign c = minus c := by
  rw [sign]
  split
  · rfl
  · next e hn =>
      rw [Cursor.accept?_eq_none_iff.mpr h] at hn
      cases hn

theorem writesExponent_of_exponent {r : Reading (Option Exponent) c} (h : exponent c = .ok r) :
    ∃ t, c.Passes t r.stop ∧ WritesExponent t r.value := by
  rw [exponent] at h
  split at h
  · cases h
    exact ⟨[], c.passes_nil, .none⟩
  · next x d hx =>
      split at h
      · next he =>
          obtain ⟨ds, hds, h⟩ := Except.bind_eq_ok_iff.mp h
          cases h
          have hp := Cursor.next?_eq_some_iff.mp hx
          obtain ⟨hd, hdigits, -⟩ := isDigits_of_digits hds
          obtain ⟨s, hs, ⟨hv, rfl | rfl⟩ | ⟨hv, rfl⟩⟩ := passes_sign d
          · exact ⟨_, hp.trans (hs.trans hd), hv ▸ .unsigned he hdigits⟩
          · exact ⟨_, hp.trans (hs.trans hd), hv ▸ .plus he hdigits⟩
          · exact ⟨_, hp.trans (hs.trans hd), hv ▸ .minus he hdigits⟩
      · cases h
        exact ⟨[], c.passes_nil, .none⟩

/-- What may follow a number may follow the parts of it. -/
theorem halts_of_writesExponent {x : Option Exponent} {s : List Char} (h : WritesExponent t x)
    (hs : Halts isNumberTail s) : Halts (fun y => y.isDigit || y == '.') (t ++ s) := by
  have hletter {y : Char} (hy : y = 'e' ∨ y = 'E') : (y.isDigit || y == '.') = false := by
    rcases hy with rfl | rfl <;> rfl
  cases h with
  | none =>
      apply hs.mono
      intro y hy
      simp only [isNumberTail, hy, Bool.true_or]
  | unsigned he | plus he | minus he => exact halts_cons.mpr (hletter he)

theorem halts_of_writesFraction {s : List Char} (h : WritesFraction f ds)
    (hs : Halts (fun y => y.isDigit || y == '.') s) : Halts Char.isDigit (f ++ s) := by
  cases h with
  | none => exact hs.mono fun y hy => by simp [hy]
  | point _ => exact halts_cons.mpr rfl

theorem exponent_of_next {x : Char} (h : c.Passes [x] d) (hx : x = 'e' ∨ x = 'E') {s : Bool}
    (hs : ∃ h', sign d = ⟨s, e, h'⟩) (hds : IsDigits ds) {d' : Cursor} (hp : e.Passes ds d')
    (hd : Halts Char.isDigit d'.rest) : Yields (exponent c) (some ⟨s, ds⟩) d' := by
  obtain ⟨h₁, e₁⟩ := hs
  obtain rfl : (sign d).value = s := by rw [e₁]
  obtain rfl : (sign d).stop = e := by rw [e₁]
  obtain ⟨h₂, e₂⟩ := digits_of_isDigits hds hp hd
  refine ⟨Cursor.le_trans h.le (Cursor.le_trans h₁ h₂), ?_⟩
  rw [exponent]
  split
  · next hn =>
      rw [Cursor.next?_eq_some_iff.mpr h] at hn
      cases hn
  · next y d' hn =>
      rw [Cursor.next?_eq_some_iff.mpr h] at hn
      cases hn
      rw [if_pos hx]
      simp only [e₂, Except.ok_bind]
      rfl

theorem exponent_of_writesExponent {x : Option Exponent} (h : WritesExponent t x)
    (hp : c.Passes t d) (hd : Halts isNumberTail d.rest) : Yields (exponent c) x d := by
  have hdigit : Halts Char.isDigit d.rest := hd.mono fun y hy => by simp [isNumberTail, hy]
  cases h with
  | none =>
      obtain rfl := hp.eq_of_nil
      refine ⟨d.le_refl, ?_⟩
      rw [exponent]
      split
      · rfl
      · next y d' hn =>
          have hy := hd y (by rw [(Cursor.next?_eq_some_iff.mp hn).1]; rfl)
          rw [if_neg]
          rintro (rfl | rfl) <;> cases hy
  | @unsigned _ ds he hds =>
      obtain ⟨e, h₁, h₂⟩ := hp.split_cons
      obtain ⟨y, ds', rfl⟩ := List.exists_cons_of_ne_nil hds.1
      have hy : y.isDigit = true := hds.2 y (by simp)
      have hpeek : e.peek? = some y := by
        rw [Cursor.peek?, h₂.1]
        rfl
      have hplus : e.peek? ≠ some '+' := by
        rw [hpeek]
        rintro ⟨⟩
        cases hy
      have hminus : e.peek? ≠ some '-' := by
        rw [hpeek]
        rintro ⟨⟩
        cases hy
      exact exponent_of_next h₁ he ⟨_, (sign_of_ne hplus).trans (minus_of_ne hminus)⟩ hds h₂ hdigit
  | plus he hds =>
      obtain ⟨e, h₁, hp'⟩ := hp.split_cons
      obtain ⟨f, h₂, h₃⟩ := hp'.split_cons
      exact exponent_of_next h₁ he ⟨_, sign_of_plus h₂⟩ hds h₃ hdigit
  | minus he hds =>
      obtain ⟨e, h₁, hp'⟩ := hp.split_cons
      obtain ⟨f, h₂, h₃⟩ := hp'.split_cons
      have hplus : e.peek? ≠ some '+' := by
        rw [Cursor.peek?, h₂.1]
        simp
      exact exponent_of_next h₁ he ⟨_, (sign_of_ne hplus).trans (minus_of_passes h₂)⟩ hds h₃ hdigit

theorem writesNumeral_of_numeral {r : Reading Numeral c} (h : numeral c = .ok r) :
    ∃ t, c.Passes t r.stop ∧ WritesNumeral t r.value := by
  obtain ⟨w, hw, h⟩ := Except.bind_eq_ok_iff.mp h
  obtain ⟨f, hf, h⟩ := Except.bind_eq_ok_iff.mp h
  obtain ⟨e, he, h⟩ := Except.bind_eq_ok_iff.mp h
  cases h
  obtain ⟨hpw, hwhole⟩ := isWhole_of_wholeDigits hw
  obtain ⟨t, hpf, hfraction⟩ := writesFraction_of_fractionDigits hf
  obtain ⟨u, hpe, hexponent⟩ := writesExponent_of_exponent he
  have hp := (passes_minus c).trans (hpw.trans (hpf.trans hpe))
  cases hv : (minus c).value <;> rw [hv] at hp
  · exact ⟨_, hp, .positive hwhole hfraction hexponent⟩
  · exact ⟨_, hp, .negative hwhole hfraction hexponent⟩

theorem numeral_of_minus {s : Bool} {x : Option Exponent} (hm : ∃ h, minus c = ⟨s, d, h⟩)
    (hw : IsWhole w) (hf : WritesFraction f ds) (hx : WritesExponent t x)
    (hp : d.Passes (w ++ (f ++ t)) e) (he : Halts isNumberTail e.rest) :
    Yields (numeral c) ⟨s, w, ds, x⟩ e := by
  obtain ⟨d₁, hp₁, hp'⟩ := hp.split
  obtain ⟨d₂, hp₂, hp₃⟩ := hp'.split
  have hf' := halts_of_writesExponent hx he
  have hw' := halts_of_writesFraction hf hf'
  obtain ⟨h₀, e₀⟩ := hm
  obtain rfl : (minus c).value = s := by rw [e₀]
  obtain rfl : (minus c).stop = d := by rw [e₀]
  obtain ⟨h₁, e₁⟩ := wholeDigits_of_isWhole hw hp₁ (by rw [hp₂.1, hp₃.1]; exact hw')
  obtain ⟨h₂, e₂⟩ := fractionDigits_of_writesFraction hf hp₂ (by rw [hp₃.1]; exact hf')
  obtain ⟨h₃, e₃⟩ := exponent_of_writesExponent hx hp₃ he
  refine ⟨Cursor.le_trans h₀ hp.le, ?_⟩
  simp only [numeral, e₁, e₂, e₃, Except.ok_bind]
  rfl

theorem numeral_of_writesNumeral {x : Numeral} (h : WritesNumeral t x) (hp : c.Passes t d)
    (hd : Halts isNumberTail d.rest) : Yields (numeral c) x d := by
  cases h with
  | @positive w f e ds x hw hf he =>
      obtain ⟨y, w', rfl⟩ := List.exists_cons_of_ne_nil hw.1.1
      have hne : c.peek? ≠ some '-' := by
        rw [Cursor.peek?, hp.1]
        rintro ⟨⟩
        cases hw.1.2 '-' (by simp)
      exact numeral_of_minus ⟨_, minus_of_ne hne⟩ hw hf he hp hd
  | negative hw hf he =>
      obtain ⟨e, h₁, h₂⟩ := hp.split_cons
      exact numeral_of_minus ⟨_, minus_of_passes h₁⟩ hw hf he h₂ hd

theorem writesNumeral_of_number {r : Reading Number c} (h : number c = .ok r) :
    ∃ t x, c.Passes t r.stop ∧ WritesNumeral t x ∧ x.number? = some r.value := by
  obtain ⟨x, hx, h⟩ := Except.bind_eq_ok_iff.mp h
  obtain ⟨t, ht, hw⟩ := writesNumeral_of_numeral hx
  split at h
  · next y hy =>
      cases h
      exact ⟨t, x.value, ht, hw, hy⟩
  · cases h

theorem number_of_writesNumeral {x : Numeral} {y : Number} (h : WritesNumeral t x)
    (hy : x.number? = some y) (hp : c.Passes t d) (hd : Halts isNumberTail d.rest) :
    Yields (number c) y d := by
  obtain ⟨h₁, e₁⟩ := numeral_of_writesNumeral h hp hd
  refine ⟨h₁, ?_⟩
  simp only [number, e₁, Except.ok_bind]
  split
  · next z hz =>
      rw [hy] at hz
      cases hz
      rfl
  · next hz =>
      rw [hy] at hz
      cases hz

end Read

end SigilCall.Json
