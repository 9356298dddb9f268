import SigilCall.Proofs.Json.Rendering
import SigilCall.Proofs.Literal.Balance
import SigilCall.Proofs.Literal.Crossing

namespace SigilCall.Literal

open Text Json

variable {k : Kind} {mode : Quoting} {n : Nat} {t : List Char} {x : Char}

theorem isIdle_of_isNumberChar (h : isNumberChar x = true) : isIdle x = true := by
  simp only [isNumberChar, Bool.or_eq_true, beq_iff_eq, or_assoc] at h
  rcases h with h | rfl | rfl | rfl | rfl
  · exact isIdle_of_isDigit h
  · rfl
  · rfl
  · rfl
  · rfl

theorem crosses_of_isRendered {c : Char} (h : IsRendered c t) :
    Crosses k mode ⟨.quoted, n + 1⟩ t ⟨.quoted, n + 1⟩ := by
  cases h with
  | plain hq hb _ => exact crosses_of_step (step_quoted hq hb) (Nat.succ_ne_zero n)
  | escape hx _ => exact crosses_escape fun h => absurd h hx
  | unicode hl =>
      have hlt := toNat_lt_of_unicode hl
      have hhex := isSome_hexDigit?_of_hexValue? (hexValue?_hexDigit c.toNat hlt)
      exact (crosses_escape (x := 'u') (by rintro ⟨⟩)).trans
        (crosses_of_ne fun y hy => ne_of_isSome_hexDigit? (hhex y hy))

theorem crosses_renderChar (cs : List Char) :
    Crosses k mode ⟨.quoted, n + 1⟩ (cs.flatMap renderChar) ⟨.quoted, n + 1⟩ := by
  induction cs with
  | nil => exact crosses_nil
  | cons c cs ih =>
      rw [List.flatMap_cons]
      exact (crosses_of_isRendered (isRendered_renderChar c)).trans ih

theorem isNeutral_renderString (s : String) : IsNeutral k mode (renderString s) :=
  isNeutral_of_crosses fun _ => crosses_renderChar s.toList

mutual

/-- Rendered values are scanned alike in both modes. -/
theorem isNeutral_render (v : Json) (k : Kind) (mode : Quoting) : IsNeutral k mode v.render := by
  match v with
  | .null | .bool true | .bool false => exact isNeutral_of_isIdle (List.all_eq_true.mp rfl)
  | .number y =>
      exact isNeutral_of_isIdle fun x hx => isIdle_of_isNumberChar (isNumberChar_of_mem_render hx)
  | .string s => exact isNeutral_renderString s
  | .array vs => exact (isNeutral_renderItems vs k mode).bracket .array
  | .object es => exact (isNeutral_renderEntries es k mode).bracket .object

theorem isNeutral_renderItems (vs : List Json) (k : Kind) (mode : Quoting) :
    IsNeutral k mode (renderItems vs) := by
  match vs with
  | [] => exact isNeutral_nil
  | [v] => exact isNeutral_render v k mode
  | v :: u :: vs =>
      exact (isNeutral_render v k mode).append (.cons rfl (isNeutral_renderItems (u :: vs) k mode))

theorem isNeutral_renderEntries (es : List (String × Json)) (k : Kind) (mode : Quoting) :
    IsNeutral k mode (renderEntries es) := by
  match es with
  | [] => exact isNeutral_nil
  | [(key, v)] => exact (isNeutral_renderString key).append (.cons rfl (isNeutral_render v k mode))
  | (key, v) :: e :: es =>
      exact (isNeutral_renderString key).append (.cons rfl
        ((isNeutral_render v k mode).append (.cons rfl (isNeutral_renderEntries (e :: es) k mode))))

end

theorem isLiteral_render_array (vs : List Json) (mode : Quoting) :
    IsLiteral .array mode (Json.array vs).render := by
  have h := scan_of_isNeutral (isNeutral_renderItems vs .array mode) []
  exact ((scan_eq_iff rfl).mp h).2

theorem isLiteral_render_object (es : List (String × Json)) (mode : Quoting) :
    IsLiteral .object mode (Json.object es).render := by
  have h := scan_of_isNeutral (isNeutral_renderEntries es .object mode) []
  exact ((scan_eq_iff rfl).mp h).2

end SigilCall.Literal
