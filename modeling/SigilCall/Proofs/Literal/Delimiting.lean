import SigilCall.Call.Basic
import SigilCall.Proofs.Literal.Rendering

namespace SigilCall

open Text

namespace Json

variable {t t' : List Char} {ss ss' : List String} {x : Char} {s : String}

mutual

def strings : Json → List String
  | .string s => [s]
  | .array vs => stringsItems vs
  | .object es => stringsEntries es
  | _ => []

def stringsItems : List Json → List String
  | [] => []
  | v :: vs => v.strings ++ stringsItems vs

def stringsEntries : List (String × Json) → List String
  | [] => []
  | (k, v) :: es => k :: (v.strings ++ stringsEntries es)

end

def isBare (x : Char) : Bool := x != '"' && !isSpace x && 0x20 ≤ x.toNat

/-- A text quotes strings if it has them in their order, with bare characters around them. No string
has a mark inside, so each mark is where one of the strings starts or ends. -/
inductive Quotes : List String → List Char → Prop
  | nil : Quotes [] []
  | bare {x : Char} {t : List Char} {ss : List String} : isBare x = true → Quotes ss t →
      Quotes ss (x :: t)
  | string {s : String} {b t : List Char} {ss : List String} : WritesChars b s.toList →
      (∀ x ∈ b, x ≠ '"' ∧ 0x20 ≤ x.toNat) → Quotes ss t → Quotes (s :: ss) ('"' :: (b ++ '"' :: t))

theorem Quotes.append (h : Quotes ss t) (h' : Quotes ss' t') : Quotes (ss ++ ss') (t ++ t') := by
  induction h with
  | nil => exact h'
  | bare hx _ ih => exact .bare hx ih
  | string hs hb _ ih =>
      rw [List.cons_append, List.cons_append, List.append_assoc, List.cons_append]
      exact .string hs hb ih

/-- There are no control characters in such a text. -/
theorem Quotes.printable (h : Quotes ss t) : ∀ x ∈ t, 0x20 ≤ x.toNat := by
  induction h with
  | nil => simp
  | bare hx _ ih =>
      simp only [isBare, Bool.and_eq_true, decide_eq_true_eq] at hx
      exact List.forall_mem_cons.mpr ⟨hx.2, ih⟩
  | string _ hb _ ih =>
      exact List.forall_mem_cons.mpr ⟨by decide, List.forall_mem_append.mpr
        ⟨fun x hx => (hb x hx).2, List.forall_mem_cons.mpr ⟨by decide, ih⟩⟩⟩

theorem quotes_of_isBare (h : ∀ x ∈ t, isBare x = true) : Quotes [] t := by
  induction t with
  | nil => exact .nil
  | cons x t ih =>
      exact .bare (h x (by simp)) (ih fun y hy => h y (List.mem_cons_of_mem x hy))

theorem Quotes.bracket {x y : Char} (h : Quotes ss t) (hx : isBare x = true) (hy : isBare y = true) :
    Quotes ss (x :: (t ++ [y])) := by
  have hend := h.append (.bare hy .nil)
  rw [List.append_nil] at hend
  exact .bare hx hend

theorem isBare_of_isNumberChar (h : isNumberChar x = true) : isBare x = true := by
  simp only [isNumberChar, Bool.or_eq_true, beq_iff_eq, or_assoc] at h
  rcases h with h | rfl | rfl | rfl | rfl
  · have hname : isNameChar x = true := by simp [isNameChar, Char.isAlphanum, h]
    have hspace : isSpace x = false := isSpace_eq_false_of_isNameChar hname
    obtain ⟨hlow, -⟩ := Bool.and_eq_true_iff.mp h
    have hle : 48 ≤ x.toNat := of_decide_eq_true hlow
    have hmark : x ≠ '"' := by
      rintro rfl
      cases h
    simp only [isBare, hspace, Bool.and_eq_true, bne_iff_ne, decide_eq_true_eq]
    exact ⟨⟨hmark, rfl⟩, by omega⟩
  all_goals rfl

theorem printable_of_escaped? {c : Char} (h : Read.escaped? x = some c) : 0x20 ≤ x.toNat := by
  unfold Read.escaped? at h
  split at h
  case h_9 => cases h
  all_goals decide

theorem printable_hexDigit : ∀ n < 0x10, hexDigit n ≠ '"' ∧ 0x20 ≤ (hexDigit n).toNat := by decide

/-- A mark inside a string is written by its number, and so are control characters. -/
theorem printable_of_isRendered {c : Char} (h : IsRendered c t) :
    ∀ x ∈ t, x ≠ '"' ∧ 0x20 ≤ x.toNat := by
  cases h with
  | plain hq _ hl => exact List.forall_mem_singleton.mpr ⟨hq, hl⟩
  | escape hx hc =>
      exact List.forall_mem_cons.mpr ⟨by decide,
        List.forall_mem_singleton.mpr ⟨hx, printable_of_escaped? hc⟩⟩
  | unicode hl =>
      have hlt := toNat_lt_of_unicode hl
      have hhigh := printable_hexDigit (c.toNat / 16) (by omega)
      have hlow := printable_hexDigit (c.toNat % 16) (by omega)
      simp only [List.forall_mem_cons]
      exact ⟨by decide, by decide, by decide, by decide, hhigh, hlow, by simp⟩

theorem quotes_renderString (s : String) : Quotes [s] (renderString s) := by
  refine .string (writesChars_renderChar s.toList) (fun x hx => ?_) .nil
  obtain ⟨c, -, hc⟩ := List.mem_flatMap.mp hx
  exact printable_of_isRendered (isRendered_renderChar c) x hc

mutual

/-- The text of a value quotes the strings in it, and has no other marks. -/
theorem quotes_render (v : Json) : Quotes v.strings v.render := by
  match v with
  | .null | .bool true | .bool false => exact quotes_of_isBare (List.all_eq_true.mp rfl)
  | .number y =>
      exact quotes_of_isBare fun x hx => isBare_of_isNumberChar (isNumberChar_of_mem_render hx)
  | .string s => exact quotes_renderString s
  | .array vs => exact (quotes_renderItems vs).bracket rfl rfl
  | .object es => exact (quotes_renderEntries es).bracket rfl rfl

theorem quotes_renderItems (vs : List Json) : Quotes (stringsItems vs) (renderItems vs) := by
  match vs with
  | [] => exact .nil
  | [v] =>
      rw [stringsItems, stringsItems, List.append_nil]
      exact quotes_render v
  | v :: u :: vs => exact (quotes_render v).append (.bare rfl (quotes_renderItems (u :: vs)))

theorem quotes_renderEntries (es : List (String × Json)) :
    Quotes (stringsEntries es) (renderEntries es) := by
  match es with
  | [] => exact .nil
  | [(k, v)] =>
      rw [stringsEntries, stringsEntries, List.append_nil]
      exact (quotes_renderString k).append (.bare rfl (quotes_render v))
  | (k, v) :: e :: es =>
      exact (quotes_renderString k).append
        (.bare rfl ((quotes_render v).append (.bare rfl (quotes_renderEntries (e :: es)))))

end

end Json

namespace Literal

/-- A text delimits itself as the literal of a value. A scan ends with it in either mode, whatever
follows, and its marks are those around the strings of the value. -/
structure Delimits (k : Kind) (v : Json) (t : List Char) : Prop where
  scan : ∀ mode tail, Span.scan k mode (t ++ tail) = ⟨t, tail, true⟩
  quotes : Json.Quotes v.strings t
  printable : ∀ x ∈ t, 0x20 ≤ x.toNat

end Literal

/-- The text of an object or array as an argument delimits itself. -/
theorem Argument.delimits_toString :
    (∀ es, Literal.Delimits .object (.object es) (toString (Argument.object es)).toList) ∧
      ∀ vs, Literal.Delimits .array (.array vs) (toString (Argument.array vs)).toList := by
  have hobject : ∀ es, (toString (Argument.object es)).toList = (Json.object es).render :=
    fun es => String.toList_ofList
  have harray : ∀ vs, (toString (Argument.array vs)).toList = (Json.array vs).render :=
    fun vs => String.toList_ofList
  refine ⟨fun es => ?_, fun vs => ?_⟩
  · rw [hobject]
    exact ⟨fun mode tail => Literal.scan_of_isNeutral (Literal.isNeutral_renderEntries es .object mode) tail,
      Json.quotes_render _, (Json.quotes_render _).printable⟩
  · rw [harray]
    exact ⟨fun mode tail => Literal.scan_of_isNeutral (Literal.isNeutral_renderItems vs .array mode) tail,
      Json.quotes_render _, (Json.quotes_render _).printable⟩

end SigilCall
