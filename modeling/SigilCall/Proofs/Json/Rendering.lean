import SigilCall.Json.Parts
import SigilCall.Json.Render
import SigilCall.Proofs.Json.Decode

namespace SigilCall.Json

open Text Json.Read

variable {n m : Nat} {s : List Char} {x : Char}

def isNumberChar (x : Char) : Bool := x.isDigit || x == '-' || x == '+' || x == '.' || x == 'e'

theorem isNumberChar_of_isDigit (h : x.isDigit = true) : isNumberChar x = true := by
  simp only [isNumberChar, h, Bool.true_or]

theorem isDigit_of_mem_digits (h : x ∈ Decimal.digits n) : x.isDigit = true :=
  Nat.isDigit_of_mem_toDigits (by decide) (by decide) h

theorem isNumberChar_of_mem_digits (h : x ∈ Decimal.digits n) : isNumberChar x = true :=
  isNumberChar_of_isDigit (isDigit_of_mem_digits h)

theorem isNumberChar_of_mem_positional {ds : List Char} {lead : Int}
    (hd : ∀ x ∈ ds, x.isDigit = true) (h : x ∈ Decimal.positional ds lead) :
    isNumberChar x = true := by
  rw [Decimal.positional] at h
  split at h
  · simp only [List.mem_cons, List.mem_append, List.mem_replicate] at h
    rcases h with rfl | rfl | ⟨-, rfl⟩ | h
    · rfl
    · rfl
    · rfl
    · exact isNumberChar_of_isDigit (hd x h)
  · simp only [List.mem_cons, List.mem_append, List.mem_replicate] at h
    rcases h with (h | ⟨-, rfl⟩) | rfl | h
    · exact isNumberChar_of_isDigit (hd x (List.mem_of_mem_take h))
    · rfl
    · rfl
    · split at h
      · cases List.mem_singleton.mp h
        rfl
      · exact isNumberChar_of_isDigit (hd x (List.mem_of_mem_drop h))

theorem isNumberChar_of_mem_scientific {ds : List Char} {lead : Int}
    (hd : ∀ x ∈ ds, x.isDigit = true) (h : x ∈ Decimal.scientific ds lead) :
    isNumberChar x = true := by
  simp only [Decimal.scientific, List.mem_cons, List.mem_append] at h
  rcases h with (h | h) | rfl | h | h
  · exact isNumberChar_of_isDigit (hd x (List.mem_of_mem_take h))
  · split at h
    · cases h
    · rcases List.mem_cons.mp h with rfl | h
      · rfl
      · exact isNumberChar_of_isDigit (hd x (List.mem_of_mem_tail h))
  · rfl
  · split at h
    · rw [h]
      rfl
    · rw [h]
      rfl
  · exact isNumberChar_of_mem_digits h

theorem isNumberChar_of_mem_decimal {style : Decimal.Style} {d : Decimal}
    (h : x ∈ d.render style) : isNumberChar x = true := by
  rw [Decimal.render] at h
  split at h
  · exact isNumberChar_of_mem_positional (fun _ => isDigit_of_mem_digits) h
  · exact isNumberChar_of_mem_scientific (fun _ => isDigit_of_mem_digits) h

theorem isNumberChar_of_mem_render {y : Number} (h : x ∈ y.render) : isNumberChar x = true := by
  cases y with
  | integer i hi =>
      rcases List.mem_append.mp h with h | h
      · split at h
        · cases List.mem_singleton.mp h
          rfl
        · cases h
      · exact isNumberChar_of_mem_digits h
  | float f hf =>
      rw [Number.render, Decimal.ofFloat] at h
      split at h
      · exact isNumberChar_of_mem_decimal h
      · rcases List.mem_cons.mp h with rfl | h
        · rfl
        · exact isNumberChar_of_mem_decimal h

theorem isBlank_of_isNumberChar (h : isNumberChar x = true) : isBlank x = false := by
  apply Bool.eq_false_iff.mpr
  intro hb
  rcases isBlank_iff.mp hb with rfl | rfl | rfl | rfl <;> cases h

theorem eq_nil_of_isBlank {b : List Char} (hb : IsBlank b) (h : ∀ x ∈ b, isNumberChar x = true) :
    b = [] := by
  cases b with
  | nil => rfl
  | cons x b =>
      have hx := hb x (by simp)
      rw [isBlank_of_isNumberChar (h x (by simp))] at hx
      cases hx

/-- A rendered number has no blanks in it, so all of it is the number that it is decoded as. -/
theorem writes_of_decode_render {y z : Number} (h : decode y.render = .ok (.number z)) :
    Writes n y.render (.number z) := by
  obtain ⟨b, s, b', hs, hb, hw, hb'⟩ := decode_eq_ok_iff.mp h
  have hchars : ∀ x ∈ b ++ (s ++ b'), isNumberChar x = true := fun x hx =>
    isNumberChar_of_mem_render (hs ▸ hx)
  obtain rfl := eq_nil_of_isBlank hb fun x hx => hchars x (by simp [hx])
  obtain rfl := eq_nil_of_isBlank hb' fun x hx => hchars x (by simp [hx])
  rw [List.nil_append, List.append_nil] at hs
  rw [hs]
  cases hw with
  | number hy hz => exact .number hy hz

theorem eq_zero_of_head?_digits (h : (Decimal.digits n).head? = some '0') : n = 0 := by
  induction n using Nat.strongRecOn with
  | _ n ih =>
      by_cases hn : n < 10
      · have hchar : ∀ m < 10, Nat.digitChar m = '0' → m = 0 := by decide
        rw [Decimal.digits, Nat.toDigits_of_lt_base hn] at h
        exact hchar n hn (Option.some.inj h)
      · have hne : Nat.toDigits 10 (n / 10) ≠ [] := Nat.toDigits_ne_nil
        rw [Decimal.digits, Nat.toDigits_of_base_le (by decide) (Nat.le_of_not_lt hn),
          List.head?_append, List.head?_eq_some_head hne, Option.some_or,
          ← List.head?_eq_some_head hne] at h
        have := ih (n / 10) (by omega) h
        omega

theorem isWhole_digits (n : Nat) : IsWhole (Decimal.digits n) := by
  refine ⟨⟨Nat.toDigits_ne_nil, fun x => isDigit_of_mem_digits⟩, fun h => ?_⟩
  rw [eq_zero_of_head?_digits h]
  rfl

theorem le_ofDigitChars (ds : List Char) (m : Nat) : m ≤ Nat.ofDigitChars 10 ds m := by
  induction ds generalizing m with
  | nil => exact Nat.le_of_eq Nat.ofDigitChars_nil.symm
  | cons d ds ih =>
      rw [Nat.ofDigitChars_cons]
      exact Nat.le_trans (by omega) (ih _)

/-- A number below the bound is read to its last digit. -/
theorem accumulate_eq {bound : Nat} {ds : List Char} (h : Nat.ofDigitChars 10 ds m < bound) :
    Numeral.accumulate bound m ds = (Nat.ofDigitChars 10 ds m, []) := by
  induction ds generalizing m with
  | nil => rw [Numeral.accumulate, Nat.ofDigitChars_nil]
  | cons d ds ih =>
      rw [Nat.ofDigitChars_cons] at h ⊢
      rw [Numeral.accumulate]
      have hlt : 10 * m + digitValue d < bound := Nat.lt_of_le_of_lt (le_ofDigitChars ds _) h
      rw [if_pos hlt]
      exact ih h

theorem integral_digits {negative : Bool} {e : Option Exponent} {f : List Char} (h : n < 0x10000000000000000) :
    (⟨negative, Decimal.digits n, f, e⟩ : Numeral).integral = (n, []) := by
  have hn : Nat.ofDigitChars 10 (Decimal.digits n) 0 = n := Nat.ofDigitChars_ten_toDigits
  rw [Numeral.integral, accumulate_eq (by rw [hn]; exact h), hn]

theorem writesNumeral_digits (n : Nat) :
    WritesNumeral (Decimal.digits n) ⟨false, Decimal.digits n, [], none⟩ := by
  have := WritesNumeral.positive (isWhole_digits n) .none .none
  rwa [List.append_nil, List.append_nil] at this

theorem writesNumeral_minus_digits (n : Nat) :
    WritesNumeral ('-' :: Decimal.digits n) ⟨true, Decimal.digits n, [], none⟩ := by
  have := WritesNumeral.negative (isWhole_digits n) .none .none
  rwa [List.append_nil, List.append_nil] at this

/-- Integers of 64 bits are read back. -/
theorem writes_integer (i : Int) (h : -0x8000000000000000 ≤ i ∧ i < 0x10000000000000000) :
    Writes n (Number.integer i h).render (.number (.integer i h)) := by
  have hlt : i.natAbs < 0x10000000000000000 := by omega
  by_cases hi : i < 0
  · rw [Number.render, if_pos hi]
    apply Writes.number (writesNumeral_minus_digits i.natAbs)
    have hneg : -(i.natAbs : Int) = i := by omega
    have hne : i.natAbs ≠ 0 := by omega
    have hinteger : (⟨true, Decimal.digits i.natAbs, [], none⟩ : Numeral).isInteger = true := by
      simp [Numeral.isInteger, integral_digits hlt]
    rw [Numeral.number?, if_pos hinteger, if_pos rfl, integral_digits hlt, if_neg hne, hneg,
      Number.ofInt?, dif_pos h, Option.some_or]
  · rw [Number.render, if_neg hi]
    apply Writes.number (writesNumeral_digits i.natAbs)
    have hpos : (i.natAbs : Int) = i := by omega
    have hinteger : (⟨false, Decimal.digits i.natAbs, [], none⟩ : Numeral).isInteger = true := by
      simp [Numeral.isInteger, integral_digits hlt]
    rw [Numeral.number?, if_pos hinteger, if_neg Bool.false_ne_true, integral_digits hlt, hpos,
      Number.ofInt?, dif_pos h]

inductive IsRendered (c : Char) : List Char → Prop
  | plain : c ≠ '"' → c ≠ '\\' → 0x20 ≤ c.toNat → IsRendered c [c]
  | escape {x : Char} : x ≠ '"' → escaped? x = some c → IsRendered c ['\\', x]
  | unicode : c.toNat < 0x20 ∨ c = '"' →
      IsRendered c ['\\', 'u', '0', '0', hexDigit (c.toNat / 16), hexDigit (c.toNat % 16)]

theorem isRendered_renderChar (c : Char) : IsRendered c (renderChar c) := by
  rw [renderChar]
  split
  · next hc =>
      subst hc
      exact .unicode (.inr rfl)
  · next hq =>
      split
      · next hc => exact hc ▸ .escape (x := '\\') (by decide) rfl
      · next hb =>
          split
          · next hc => exact hc ▸ .escape (x := 'b') (by decide) rfl
          split
          · next hc => exact hc ▸ .escape (x := 't') (by decide) rfl
          split
          · next hc => exact hc ▸ .escape (x := 'n') (by decide) rfl
          split
          · next hc => exact hc ▸ .escape (x := 'f') (by decide) rfl
          split
          · next hc => exact hc ▸ .escape (x := 'r') (by decide) rfl
          split
          · next hl => exact .unicode (.inl hl)
          · next hl => exact .plain hq hb (Nat.le_of_not_lt hl)

theorem toNat_lt_of_unicode {c : Char} (h : c.toNat < 0x20 ∨ c = '"') : c.toNat < 0x23 := by
  rcases h with h | rfl
  · omega
  · decide

theorem hexValue?_hexDigit :
    ∀ n < 0x23, hexValue? ['0', '0', hexDigit (n / 16), hexDigit (n % 16)] = some n := by
  decide

theorem writesChar_renderChar (c : Char) : WritesChar (renderChar c) c := by
  have h := isRendered_renderChar c
  generalize renderChar c = s at h ⊢
  cases h with
  | plain hq hb hl => exact .plain hq hb hl
  | escape _ hx => exact .escape hx
  | unicode hl =>
      have hlt := toNat_lt_of_unicode hl
      have hunit : WritesUnit ['0', '0', hexDigit (c.toNat / 16), hexDigit (c.toNat % 16)] c.toNat :=
        ⟨rfl, hexValue?_hexDigit c.toNat hlt⟩
      have hchar := WritesChar.unicode hunit (by simp [isTrailing]; omega) (by simp [isLeading]; omega)
      rwa [Char.ofNat_toNat] at hchar

theorem writesChars_renderChar (cs : List Char) : WritesChars (cs.flatMap renderChar) cs := by
  induction cs with
  | nil => exact .nil
  | cons c cs ih =>
      rw [List.flatMap_cons]
      exact .cons (writesChar_renderChar c) ih

def IsExact : Json → Prop
  | .number (.float x h) => decode (Number.float x h).render = .ok (.number (.float x h))
  | .object es => (es.map Prod.fst).Nodup
  | _ => True

theorem insert_of_not_mem {k : String} {v : Json} {es : List (String × Json)}
    (h : k ∉ es.map Prod.fst) : insert k v es = es ++ [(k, v)] := by
  induction es with
  | nil => rfl
  | cons e es ih =>
      rw [List.map_cons, List.mem_cons, not_or] at h
      rw [insert, if_neg (Ne.symm h.1), ih h.2]
      rfl

theorem foldl_insert {es fs : List (String × Json)} (h : ((es ++ fs).map Prod.fst).Nodup) :
    fs.foldl (fun done e => insert e.1 e.2 done) es = es ++ fs := by
  induction fs generalizing es with
  | nil => rw [List.append_nil, List.foldl_nil]
  | cons e fs ih =>
      have hcut : es ++ e :: fs = (es ++ [e]) ++ fs := by
        rw [List.append_assoc, List.singleton_append]
      have hnot : e.1 ∉ es.map Prod.fst := by
        rw [List.map_append, List.nodup_append] at h
        intro hmem
        exact h.2.2 e.1 hmem e.1 (by simp) rfl
      rw [List.foldl_cons, insert_of_not_mem hnot, hcut]
      exact ih (hcut ▸ h)

/-- Entries with different keys stay as they are. -/
theorem collect_eq {es : List (String × Json)} (h : (es.map Prod.fst).Nodup) : collect es = es :=
  foldl_insert h

theorem writesElement_of_writes {v : Json} (h : Writes n s v) : WritesElement n s v := by
  have := WritesElement.mk isBlank_nil h isBlank_nil
  rwa [List.append_nil, List.nil_append] at this

theorem writesEntry_of_writes {k : String} {v : Json} (h : Writes n s v) :
    WritesEntry n (renderString k ++ ':' :: s) (k, v) := by
  have := WritesEntry.mk isBlank_nil (writesChars_renderChar k.toList) isBlank_nil
    (writesElement_of_writes h)
  rwa [String.ofList_toList] at this

mutual

/-- The text of a value writes that value. -/
theorem writes_render (v : Json) {n : Nat} (hn : v.levels ≤ n) (h : ∀ w ∈ v.parts, IsExact w) :
    Writes n v.render v := by
  match v with
  | .null => exact .null
  | .bool true => exact .true
  | .bool false => exact .false
  | .number (.integer i hi) => exact writes_integer i hi
  | .number (.float x hx) =>
      have hexact : decode (Number.float x hx).render = .ok (.number (.float x hx)) :=
        h (.number (.float x hx)) (by simp [parts])
      exact writes_of_decode_render hexact
  | .string s =>
      have := Writes.string (n := n) (writesChars_renderChar s.toList)
      rwa [String.ofList_toList] at this
  | .array vs =>
      obtain ⟨m, rfl⟩ : ∃ m, n = m + 1 := ⟨n - 1, by rw [levels_array] at hn; omega⟩
      have hm : levelsItems vs ≤ m := Nat.le_of_succ_le_succ hn
      by_cases hvs : vs = []
      · subst hvs
        exact .emptyArray isBlank_nil
      · exact .array (writesItems_render vs hvs hm fun w hw => h w (by simp [hw]))
  | .object es =>
      obtain ⟨m, rfl⟩ : ∃ m, n = m + 1 := ⟨n - 1, by rw [levels_object] at hn; omega⟩
      have hm : levelsEntries es ≤ m := Nat.le_of_succ_le_succ hn
      by_cases hes : es = []
      · subst hes
        exact .emptyObject isBlank_nil
      · have hkeys : (es.map Prod.fst).Nodup := h (.object es) (by simp)
        have := Writes.object (writesEntries_render es hes hm fun w hw => h w (by simp [hw]))
        rwa [collect_eq hkeys] at this

theorem writesItems_render (vs : List Json) (hne : vs ≠ []) {n : Nat} (hn : levelsItems vs ≤ n)
    (h : ∀ w ∈ partsItems vs, IsExact w) : WritesItems n (renderItems vs) vs := by
  match vs with
  | [] => exact absurd rfl hne
  | [v] =>
      exact .one (writesElement_of_writes
        (writes_render v (Nat.max_le.mp hn).1 fun w hw => h w (by simp [hw])))
  | v :: u :: vs =>
      obtain ⟨hv, hvs⟩ := Nat.max_le.mp hn
      refine .more (writesElement_of_writes
        (writes_render v hv fun w hw => h w (List.mem_append_left _ hw))) ?_
      exact writesItems_render (u :: vs) (List.cons_ne_nil _ _) hvs
        fun w hw => h w (List.mem_append_right _ hw)

theorem writesEntries_render (es : List (String × Json)) (hne : es ≠ []) {n : Nat}
    (hn : levelsEntries es ≤ n) (h : ∀ w ∈ partsEntries es, IsExact w) :
    WritesEntries n (renderEntries es) es := by
  match es with
  | [] => exact absurd rfl hne
  | [(k, v)] =>
      exact .one (writesEntry_of_writes
        (writes_render v (Nat.max_le.mp hn).1 fun w hw => h w (List.mem_append_left _ hw)))
  | (k, v) :: e :: es =>
      obtain ⟨hlevels, hrest⟩ := Nat.max_le.mp hn
      have hv : WritesEntry n (renderString k ++ ':' :: v.render) (k, v) := writesEntry_of_writes
        (writes_render v hlevels fun w hw => h w (List.mem_append_left _ hw))
      have hes : WritesEntries n (renderEntries (e :: es)) (e :: es) :=
        writesEntries_render (e :: es) (List.cons_ne_nil _ _) hrest
          fun w hw => h w (List.mem_append_right _ hw)
      have := WritesEntries.more hv hes
      rwa [List.append_assoc] at this

end

end SigilCall.Json
