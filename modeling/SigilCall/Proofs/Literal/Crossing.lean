import SigilCall.Json.Grammar

namespace SigilCall.Literal

open Text Json

variable {k : Kind} {mode : Quoting} {n : Nat} {s s' s'' : SpanState} {t u : List Char} {x : Char}

def Crosses (k : Kind) (mode : Quoting) (s : SpanState) (t : List Char) (s' : SpanState) : Prop :=
  ∀ tail, Span.scanFrom k mode s (t ++ tail) =
    ⟨t ++ (Span.scanFrom k mode s' tail).text, (Span.scanFrom k mode s' tail).rest,
      (Span.scanFrom k mode s' tail).closed⟩

theorem crosses_nil : Crosses k mode s [] s := by
  intro tail
  rfl

theorem Crosses.trans (h : Crosses k mode s t s') (h' : Crosses k mode s' u s'') :
    Crosses k mode s (t ++ u) s'' := by
  intro tail
  rw [List.append_assoc, h, h']
  simp only [List.append_assoc]

theorem crosses_of_step (h : s.step k mode x = s') (hn : s'.depth ≠ 0) : Crosses k mode s [x] s' := by
  intro tail
  rw [List.singleton_append, Span.scanFrom, h]
  simp only [if_neg hn]
  rfl

theorem Crosses.cons (h : s.step k mode x = s') (hn : s'.depth ≠ 0) (ht : Crosses k mode s' t s'') :
    Crosses k mode s (x :: t) s'' :=
  (crosses_of_step h hn).trans ht

def IsNeutral (k : Kind) (mode : Quoting) (t : List Char) : Prop :=
  ∀ n, Crosses k mode ⟨.plain, n + 1⟩ t ⟨.plain, n + 1⟩

theorem isNeutral_nil : IsNeutral k mode [] := fun _ => crosses_nil

theorem IsNeutral.append (h : IsNeutral k mode t) (h' : IsNeutral k mode u) :
    IsNeutral k mode (t ++ u) :=
  fun n => (h n).trans (h' n)

def isIdle (x : Char) : Bool := x != '"' && x != '[' && x != ']' && x != '{' && x != '}'

theorem step_of_isIdle (h : isIdle x = true) :
    SpanState.step k mode ⟨.plain, n⟩ x = ⟨.plain, n⟩ := by
  simp only [isIdle, Bool.and_eq_true, bne_iff_ne, ne_eq, and_assoc] at h
  obtain ⟨hq, h₁, h₂, h₃, h₄⟩ := h
  cases k <;> simp [Kind.step, Kind.opening, Kind.closing, hq, h₁, h₂, h₃, h₄]

theorem isNeutral_of_isIdle (h : ∀ x ∈ t, isIdle x = true) : IsNeutral k mode t := by
  intro n
  induction t with
  | nil => exact crosses_nil
  | cons x t ih =>
      exact .cons (step_of_isIdle (h x (by simp))) (Nat.succ_ne_zero n)
        (ih fun y hy => h y (List.mem_cons_of_mem x hy))

theorem IsNeutral.cons (hx : isIdle x = true) (h : IsNeutral k mode t) :
    IsNeutral k mode (x :: t) :=
  fun n => .cons (step_of_isIdle hx) (Nat.succ_ne_zero n) (h n)

theorem step_opening : SpanState.step k mode ⟨.plain, n⟩ k.opening = ⟨.plain, n + 1⟩ := by
  simp

theorem step_closing : SpanState.step k mode ⟨.plain, n + 1⟩ k.closing = ⟨.plain, n⟩ := by
  simp

theorem step_of_ne {k' : Kind} (h : k' ≠ k) :
    SpanState.step k mode ⟨.plain, n⟩ k'.opening = ⟨.plain, n⟩ ∧
      SpanState.step k mode ⟨.plain, n⟩ k'.closing = ⟨.plain, n⟩ := by
  cases k <;> cases k' <;>
    simp [Kind.step, Kind.opening, Kind.closing] at h ⊢

/-- Brackets of the scan's kind leave it one level deeper between them, those of the other kind do
not matter to it. -/
theorem IsNeutral.bracket (h : IsNeutral k mode t) (k' : Kind) :
    IsNeutral k mode (k'.opening :: (t ++ [k'.closing])) := by
  intro n
  by_cases hk : k' = k
  · subst hk
    exact .cons step_opening (Nat.succ_ne_zero _)
      ((h (n + 1)).trans (crosses_of_step step_closing (Nat.succ_ne_zero n)))
  · exact .cons (step_of_ne hk).1 (Nat.succ_ne_zero n)
      ((h n).trans (crosses_of_step (step_of_ne hk).2 (Nat.succ_ne_zero n)))

theorem step_quoted (hq : x ≠ '"') (hb : x ≠ '\\') :
    SpanState.step k mode ⟨.quoted, n⟩ x = ⟨.quoted, n⟩ := by
  simp [hq, hb]

theorem crosses_of_ne (h : ∀ x ∈ t, x ≠ '"' ∧ x ≠ '\\') :
    Crosses k mode ⟨.quoted, n + 1⟩ t ⟨.quoted, n + 1⟩ := by
  induction t with
  | nil => exact crosses_nil
  | cons x t ih =>
      obtain ⟨hq, hb⟩ := h x (by simp)
      exact .cons (step_quoted hq hb) (Nat.succ_ne_zero n)
        (ih fun y hy => h y (List.mem_cons_of_mem x hy))

@[simp] theorem step_backslash :
    SpanState.step k .escaped ⟨.quoted, n⟩ '\\' = ⟨.afterBackslash, n⟩ := rfl

@[simp] theorem step_backslash_naive : SpanState.step k .naive ⟨.quoted, n⟩ '\\' = ⟨.quoted, n⟩ := rfl

/-- An escape is two steps in a quoted region, in either mode. -/
theorem crosses_escape (h : x = '"' → mode = .escaped) :
    Crosses k mode ⟨.quoted, n + 1⟩ ['\\', x] ⟨.quoted, n + 1⟩ := by
  cases mode with
  | escaped =>
      exact .cons step_backslash (Nat.succ_ne_zero n) (crosses_of_step rfl (Nat.succ_ne_zero n))
  | naive =>
      refine .cons step_backslash_naive (Nat.succ_ne_zero n)
        (crosses_of_step ?_ (Nat.succ_ne_zero n))
      have hq : x ≠ '"' := by
        intro hx
        cases h hx
      simp [Region.step, hq]

theorem ne_of_isSome_hexDigit? (h : (Read.hexDigit? x).isSome = true) : x ≠ '"' ∧ x ≠ '\\' := by
  refine ⟨?_, ?_⟩ <;> rintro rfl <;> cases h

theorem crosses_of_isQuoted (h : IsQuoted mode t) :
    Crosses k mode ⟨.quoted, n + 1⟩ t ⟨.quoted, n + 1⟩ := by
  induction h with
  | nil => exact crosses_nil
  | char hq hb _ _ ih => exact .cons (step_quoted hq hb) (Nat.succ_ne_zero n) ih
  | escape _ hq _ ih => exact (crosses_escape hq).trans ih
  | unicode _ hx _ ih =>
      exact (crosses_escape (x := 'u') (by rintro ⟨⟩)).trans
        ((crosses_of_ne fun y hy => ne_of_isSome_hexDigit? (hx y hy)).trans ih)

theorem isNeutral_of_crosses
    (h : ∀ n, Crosses k mode ⟨.quoted, n + 1⟩ t ⟨.quoted, n + 1⟩) :
    IsNeutral k mode ('"' :: (t ++ ['"'])) := by
  intro n
  have hstart : SpanState.step k mode ⟨.plain, n + 1⟩ '"' = ⟨.quoted, n + 1⟩ := by
    cases k <;> rfl
  exact .cons hstart (Nat.succ_ne_zero n) ((h n).trans (crosses_of_step rfl (Nat.succ_ne_zero n)))

theorem isNeutral_of_isString (h : IsString mode t) : IsNeutral k mode t := by
  cases h with
  | mk hs => exact isNeutral_of_crosses fun _ => crosses_of_isQuoted hs

theorem isIdle_of_isDigit (h : x.isDigit = true) : isIdle x = true := by
  simp only [isIdle, Bool.and_eq_true, bne_iff_ne, ne_eq]
  refine ⟨⟨⟨⟨?_, ?_⟩, ?_⟩, ?_⟩, ?_⟩ <;> rintro rfl <;> cases h

theorem isNeutral_of_isDigits (h : IsDigits t) : IsNeutral k mode t :=
  isNeutral_of_isIdle fun x hx => isIdle_of_isDigit (h.2 x hx)

theorem isNeutral_of_isBlank (h : IsBlank t) : IsNeutral k mode t := by
  apply isNeutral_of_isIdle
  intro x hx
  have := h x hx
  simp only [Read.isBlank, Bool.or_eq_true, beq_iff_eq, or_assoc] at this
  rcases this with rfl | rfl | rfl | rfl <;> rfl

theorem isNeutral_of_isFraction (h : IsFraction t) : IsNeutral k mode t := by
  cases h with
  | none => exact isNeutral_nil
  | point h => exact .cons rfl (isNeutral_of_isDigits h)

theorem isNeutral_of_isExponent (h : IsExponent t) : IsNeutral k mode t := by
  cases h with
  | none => exact isNeutral_nil
  | unsigned he h =>
      rcases he with rfl | rfl <;> exact .cons rfl (isNeutral_of_isDigits h)
  | signed he hs h =>
      rcases he with rfl | rfl <;> rcases hs with rfl | rfl <;>
        exact .cons rfl (.cons rfl (isNeutral_of_isDigits h))

theorem isNeutral_of_isUnsigned (h : IsUnsigned t) : IsNeutral k mode t := by
  cases h with
  | mk hw _ hf he =>
      exact (isNeutral_of_isDigits hw).append
        ((isNeutral_of_isFraction hf).append (isNeutral_of_isExponent he))

theorem isNeutral_of_isNumber (h : IsNumber t) : IsNeutral k mode t := by
  cases h with
  | positive h => exact isNeutral_of_isUnsigned h
  | negative h => exact .cons rfl (isNeutral_of_isUnsigned h)

mutual

/-- No JSON text inside a literal stops the scan of it. -/
theorem isNeutral_of_isValue {mode : Quoting} {t : List Char} (h : IsValue mode t) (k : Kind) :
    IsNeutral k mode t := by
  match h with
  | .null | .true | .false => exact isNeutral_of_isIdle (List.all_eq_true.mp rfl)
  | .number h => exact isNeutral_of_isNumber h
  | .string h => exact isNeutral_of_isString h
  | .emptyArray h => exact (isNeutral_of_isBlank h).bracket .array
  | .array h => exact (isNeutral_of_isItems h k).bracket .array
  | .emptyObject h => exact (isNeutral_of_isBlank h).bracket .object
  | .object h => exact (isNeutral_of_isEntries h k).bracket .object

theorem isNeutral_of_isElement {mode : Quoting} {t : List Char} (h : IsElement mode t) (k : Kind) :
    IsNeutral k mode t := by
  match h with
  | .mk hb hv hb' =>
      exact (isNeutral_of_isBlank hb).append
        ((isNeutral_of_isValue hv k).append (isNeutral_of_isBlank hb'))

theorem isNeutral_of_isItems {mode : Quoting} {t : List Char} (h : IsItems mode t) (k : Kind) :
    IsNeutral k mode t := by
  match h with
  | .one h => exact isNeutral_of_isElement h k
  | .more h ht => exact (isNeutral_of_isElement h k).append (.cons rfl (isNeutral_of_isItems ht k))

theorem isNeutral_of_isEntry {mode : Quoting} {t : List Char} (h : IsEntry mode t) (k : Kind) :
    IsNeutral k mode t := by
  match h with
  | .mk hb hk hb' hv =>
      exact (isNeutral_of_isBlank hb).append ((isNeutral_of_isString hk).append
        ((isNeutral_of_isBlank hb').append (.cons rfl (isNeutral_of_isElement hv k))))

theorem isNeutral_of_isEntries {mode : Quoting} {t : List Char} (h : IsEntries mode t) (k : Kind) :
    IsNeutral k mode t := by
  match h with
  | .one h => exact isNeutral_of_isEntry h k
  | .more h ht => exact (isNeutral_of_isEntry h k).append (.cons rfl (isNeutral_of_isEntries ht k))

end

/-- Between its brackets the text of a literal is neutral. -/
theorem scan_of_isNeutral (h : IsNeutral k mode t) (tail : List Char) :
    Span.scan k mode ((k.opening :: (t ++ [k.closing])) ++ tail) =
      ⟨k.opening :: (t ++ [k.closing]), tail, true⟩ := by
  have hstart : SpanState.start.step k mode k.opening = ⟨.plain, 1⟩ := step_opening
  have hstop : Span.scanFrom k mode ⟨.plain, 1⟩ (k.closing :: tail) = ⟨[k.closing], tail, true⟩ := by
    rw [Span.scanFrom, step_closing]
    rfl
  have hcross := Crosses.cons hstart (Nat.succ_ne_zero 0) (h 0) (k.closing :: tail)
  rw [hstop] at hcross
  simpa only [Span.scan, List.append_assoc, List.cons_append, List.nil_append] using hcross

theorem exists_head?_of_isNumber (h : IsNumber t) :
    ∃ x, t.head? = some x ∧ (x = '-' ∨ x.isDigit = true) := by
  cases h with
  | negative => exact ⟨_, rfl, .inl rfl⟩
  | positive h =>
      obtain ⟨⟨hne, hw⟩, -, -, -⟩ := h
      obtain ⟨x, w, rfl⟩ := List.exists_cons_of_ne_nil hne
      exact ⟨x, rfl, .inr (hw x (by simp))⟩

/-- The scan of a JSON object or array ends with it, and not before, whatever follows. -/
theorem scan_of_isValue (h : IsValue mode t) (hk : t.head? = some k.opening) (tail : List Char) :
    Span.scan k mode (t ++ tail) = ⟨t, tail, true⟩ := by
  cases h with
  | null | true | false => cases k <;> cases hk
  | string h =>
      cases h
      cases k <;> cases hk
  | number h =>
      obtain ⟨x, hx, hx'⟩ := exists_head?_of_isNumber h
      rw [hk] at hx
      cases hx
      cases k <;> rcases hx' with hx' | hx' <;> cases hx'
  | emptyArray h =>
      cases k <;> cases hk
      exact scan_of_isNeutral (isNeutral_of_isBlank h) tail
  | array h =>
      cases k <;> cases hk
      exact scan_of_isNeutral (isNeutral_of_isItems h .array) tail
  | emptyObject h =>
      cases k <;> cases hk
      exact scan_of_isNeutral (isNeutral_of_isBlank h) tail
  | object h =>
      cases k <;> cases hk
      exact scan_of_isNeutral (isNeutral_of_isEntries h .object) tail

end SigilCall.Literal
