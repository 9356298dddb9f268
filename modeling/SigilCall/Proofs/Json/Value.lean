import SigilCall.Proofs.Json.Numeral
import SigilCall.Proofs.Json.Quoted

namespace SigilCall.Json.Read

open Text

variable {c d e : Cursor} {s t b : List Char} {x : Char} {n opened : Nat}

theorem key_of_passes {cs : List Char} (hs : WritesChars s cs) (hb : IsBlank b)
    (hp : c.Passes (('"' :: (s ++ ['"'])) ++ (b ++ [':'])) d) :
    Yields (key c) (.ofList cs) d := by
  obtain ⟨e, hp', hp''⟩ := hp.split
  obtain ⟨f, h₁, h₂⟩ := hp'.split_cons
  obtain ⟨g, h₃, h₄⟩ := hp''.split
  obtain ⟨h, hk⟩ := quoted_of_writesChars hs h₂
  have hg : skipBlank e = g := skipBlank_eq h₃ hb (by rw [h₄.1]; exact halts_cons.mpr rfl)
  refine ⟨hp.le, ?_⟩
  rw [key]
  split
  · next hn =>
      rw [Cursor.next?_eq_some_iff.mpr h₁] at hn
      cases hn
  · next y f' hn =>
      rw [Cursor.next?_eq_some_iff.mpr h₁] at hn
      cases hn
      rw [if_pos rfl, hk]
      subst hg
      simp only [Except.ok_bind]
      split
      · next hn =>
          rw [Cursor.next?_eq_some_iff.mpr h₄] at hn
          cases hn
      · next y f' hn =>
          rw [Cursor.next?_eq_some_iff.mpr h₄] at hn
          cases hn
          rfl

theorem passes_of_key {r : Reading String c} (h : key c = .ok r) :
    ∃ s b cs, c.Passes (('"' :: (s ++ ['"'])) ++ (b ++ [':'])) r.stop ∧ IsBlank b ∧
      WritesChars s cs ∧ r.value = .ofList cs := by
  rw [key] at h
  split at h
  · cases h
  · next x d hx =>
      split at h
      · next hq =>
          subst hq
          obtain ⟨k, hk, h⟩ := Except.bind_eq_ok_iff.mp h
          obtain ⟨s, hs, hw⟩ := writesChars_of_quoted hk
          obtain ⟨b, hb, hblank⟩ := passes_skipBlank k.stop
          simp only at h
          split at h
          · cases h
          · next y f hy =>
              split at h
              · next hcolon =>
                  subst hcolon
                  cases h
                  exact ⟨s, b, k.value, ((Cursor.next?_eq_some_iff.mp hx).trans hs).trans
                    (hb.trans (Cursor.next?_eq_some_iff.mp hy)), hblank, hw, rfl⟩
              · cases h
      · cases h

/-- What is read for a value once its first character is known. -/
theorem value_eq (hx : (skipBlank c).Passes [x] d) :
    value opened c =
      if x = 'n' then do
        let r ← word d ['u', 'l', 'l']
        return (r.map fun _ => .null).since (Cursor.le_trans (le_skipBlank c) hx.le)
      else if x = 't' then do
        let r ← word d ['r', 'u', 'e']
        return (r.map fun _ => .bool true).since (Cursor.le_trans (le_skipBlank c) hx.le)
      else if x = 'f' then do
        let r ← word d ['a', 'l', 's', 'e']
        return (r.map fun _ => .bool false).since (Cursor.le_trans (le_skipBlank c) hx.le)
      else if x = '"' then do
        let r ← quoted d
        return (r.map fun s => .string (.ofList s)).since (Cursor.le_trans (le_skipBlank c) hx.le)
      else if x = '-' ∨ x.isDigit then do
        let r ← number (skipBlank c)
        return (r.map .number).since (le_skipBlank c)
      else if x = '[' then
        if maxLevels ≤ opened then fail .recursionLimit (skipBlank c)
        else
          have hcf : c ≤ skipBlank d :=
            Cursor.le_trans (Cursor.le_trans (le_skipBlank c) hx.le) (le_skipBlank d)
          match h' : (skipBlank d).next? with
          | none => fail .eofList (skipBlank d)
          | some (y, e) =>
              if y = ']' then return ⟨.array [], e, Cursor.le_trans hcf (Cursor.le_of_next? h')⟩
              else do
                let r ← items (opened + 1) (skipBlank d)
                return (r.map .array).since hcf
      else if x = '{' then
        if maxLevels ≤ opened then fail .recursionLimit (skipBlank c)
        else
          have hcf : c ≤ skipBlank d :=
            Cursor.le_trans (Cursor.le_trans (le_skipBlank c) hx.le) (le_skipBlank d)
          match h' : (skipBlank d).next? with
          | none => fail .eofObject (skipBlank d)
          | some (y, e) =>
              if y = '}' then return ⟨.object [], e, Cursor.le_trans hcf (Cursor.le_of_next? h')⟩
              else do
                let r ← entries (opened + 1) (skipBlank d)
                return (r.map fun es => .object (collect es)).since hcf
      else fail .expectedValue (skipBlank c) := by
  rw [value]
  split
  · next hn =>
      rw [Cursor.next?_eq_some_iff.mpr hx] at hn
      cases hn
  · next y f hn =>
      rw [Cursor.next?_eq_some_iff.mpr hx] at hn
      cases hn
      rfl

theorem exists_of_value {r : Reading Json c} (h : value opened c = .ok r) :
    ∃ x d, (skipBlank c).Passes [x] d := by
  cases ha : (skipBlank c).next? with
  | some p => exact ⟨p.1, p.2, Cursor.next?_eq_some_iff.mp ha⟩
  | none =>
      rw [value] at h
      split at h
      · cases h
      · next hx =>
          rw [ha] at hx
          cases hx

/-- What a value that starts with a bracket is read from. -/
theorem items_of_value {r : Reading Json c} (hx : (skipBlank c).Passes ['['] d)
    (h : value opened c = .ok r) :
    opened < maxLevels ∧
      ((skipBlank d).Passes [']'] r.stop ∧ r.value = .array [] ∨
        ∃ vs, items (opened + 1) (skipBlank d) = .ok vs ∧ r.stop = vs.stop ∧
          r.value = .array vs.value) := by
  rw [value_eq hx] at h
  simp only [if_false, if_true, Char.reduceEq, Char.reduceIsDigit, or_self,
    Bool.false_eq_true] at h
  split at h
  · cases h
  · next ho =>
      refine ⟨Nat.lt_of_not_le ho, ?_⟩
      split at h
      · cases h
      · next y e hy =>
          split at h
          · next hclose =>
              cases h
              exact .inl ⟨hclose ▸ Cursor.next?_eq_some_iff.mp hy, rfl⟩
          · obtain ⟨vs, hvs, h⟩ := Except.bind_eq_ok_iff.mp h
            cases h
            exact .inr ⟨vs, hvs, rfl, rfl⟩

theorem entries_of_value {r : Reading Json c} (hx : (skipBlank c).Passes ['{'] d)
    (h : value opened c = .ok r) :
    opened < maxLevels ∧
      ((skipBlank d).Passes ['}'] r.stop ∧ r.value = .object [] ∨
        ∃ es, entries (opened + 1) (skipBlank d) = .ok es ∧ r.stop = es.stop ∧
          r.value = .object (collect es.value)) := by
  rw [value_eq hx] at h
  simp only [if_false, if_true, Char.reduceEq, Char.reduceIsDigit, or_self,
    Bool.false_eq_true] at h
  split at h
  · cases h
  · next ho =>
      refine ⟨Nat.lt_of_not_le ho, ?_⟩
      split at h
      · cases h
      · next y e hy =>
          split at h
          · next hclose =>
              cases h
              exact .inl ⟨hclose ▸ Cursor.next?_eq_some_iff.mp hy, rfl⟩
          · obtain ⟨es, hes, h⟩ := Except.bind_eq_ok_iff.mp h
            cases h
            exact .inr ⟨es, hes, rfl, rfl⟩

/-- A value that starts with no bracket is no deeper than what it stands in. -/
theorem writes_of_scalar {r : Reading Json c} (hx : (skipBlank c).Passes [x] d)
    (h : value opened c = .ok r) (hx₁ : x ≠ '[') (hx₂ : x ≠ '{') :
    ∃ s, (skipBlank c).Passes s r.stop ∧ Writes n s r.value := by
  rw [value_eq hx, if_neg hx₁, if_neg hx₂] at h
  split at h
  · next hword =>
      obtain ⟨w, hw, h⟩ := Except.bind_eq_ok_iff.mp h
      cases h
      exact ⟨_, hx.trans (passes_of_word hw), hword ▸ .null⟩
  split at h
  · next hword =>
      obtain ⟨w, hw, h⟩ := Except.bind_eq_ok_iff.mp h
      cases h
      exact ⟨_, hx.trans (passes_of_word hw), hword ▸ .true⟩
  split at h
  · next hword =>
      obtain ⟨w, hw, h⟩ := Except.bind_eq_ok_iff.mp h
      cases h
      exact ⟨_, hx.trans (passes_of_word hw), hword ▸ .false⟩
  split at h
  · next hquote =>
      obtain ⟨w, hw, h⟩ := Except.bind_eq_ok_iff.mp h
      cases h
      obtain ⟨s, hs, hchars⟩ := writesChars_of_quoted hw
      subst hquote
      exact ⟨_, hx.trans hs, .string hchars⟩
  split at h
  · obtain ⟨w, hw, h⟩ := Except.bind_eq_ok_iff.mp h
    cases h
    obtain ⟨s, y, hs, hnumeral, hy⟩ := writesNumeral_of_number hw
    exact ⟨s, hs, .number hnumeral hy⟩
  · cases h

/-- What an array is read from after one of its values. -/
theorem exists_of_items {r : Reading (List Json) c} (h : items opened c = .ok r) :
    ∃ v, value opened c = .ok v ∧
      ((skipBlank v.stop).Passes [']'] r.stop ∧ r.value = [v.value] ∨
        ∃ e vs, (skipBlank v.stop).Passes [','] e ∧ items opened (skipBlank e) = .ok vs ∧
          r.stop = vs.stop ∧ r.value = v.value :: vs.value) := by
  rw [items] at h
  obtain ⟨v, hv, h⟩ := Except.bind_eq_ok_iff.mp h
  refine ⟨v, hv, ?_⟩
  simp only at h
  split at h
  · cases h
  · next x e hx =>
      have hp := Cursor.next?_eq_some_iff.mp hx
      split at h
      · next hclose =>
          cases h
          exact .inl ⟨hclose ▸ hp, rfl⟩
      split at h
      · next hcomma =>
          split at h
          · cases h
          · obtain ⟨vs, hvs, h⟩ := Except.bind_eq_ok_iff.mp h
            cases h
            exact .inr ⟨e, vs, hcomma ▸ hp, hvs, rfl, rfl⟩
      · cases h

theorem exists_of_entries {r : Reading (List (String × Json)) c} (h : entries opened c = .ok r) :
    ∃ k v, key c = .ok k ∧ value opened k.stop = .ok v ∧
      ((skipBlank v.stop).Passes ['}'] r.stop ∧ r.value = [(k.value, v.value)] ∨
        ∃ e es, (skipBlank v.stop).Passes [','] e ∧ entries opened (skipBlank e) = .ok es ∧
          r.stop = es.stop ∧ r.value = (k.value, v.value) :: es.value) := by
  rw [entries] at h
  obtain ⟨k, hk, h⟩ := Except.bind_eq_ok_iff.mp h
  obtain ⟨v, hv, h⟩ := Except.bind_eq_ok_iff.mp h
  refine ⟨k, v, hk, hv, ?_⟩
  simp only at h
  split at h
  · cases h
  · next x e hx =>
      have hp := Cursor.next?_eq_some_iff.mp hx
      split at h
      · next hclose =>
          cases h
          exact .inl ⟨hclose ▸ hp, rfl⟩
      split at h
      · next hcomma =>
          split at h
          · cases h
          · obtain ⟨es, hes, h⟩ := Except.bind_eq_ok_iff.mp h
            cases h
            exact .inr ⟨e, es, hcomma ▸ hp, hes, rfl, rfl⟩
      · cases h

/-- What is left after a character is less than what was left before it. -/
theorem length_lt_of_passes (h : c.Passes s d) (hx : d.Passes [x] e) :
    (skipBlank e).rest.length < c.rest.length := by
  have h₁ := Cursor.length_lt_of_next? (Cursor.next?_eq_some_iff.mpr hx)
  have h₂ := Cursor.length_le (le_skipBlank e)
  have h₃ := h.length_le
  omega

theorem isBlank_append (hs : IsBlank s) (ht : IsBlank t) : IsBlank (s ++ t) := by
  intro x hx
  rcases List.mem_append.mp hx with hx | hx
  · exact hs x hx
  · exact ht x hx

/-- Blanks before a list of values belong to its first value. -/
theorem writesItems_blank {vs : List Json} (hb : IsBlank b) (h : WritesItems n s vs) :
    WritesItems n (b ++ s) vs := by
  cases h with
  | one h =>
      obtain ⟨hb₁, hv, hb₂⟩ := h
      rw [← List.append_assoc]
      exact .one (.mk (isBlank_append hb hb₁) hv hb₂)
  | more h ht =>
      obtain ⟨hb₁, hv, hb₂⟩ := h
      rw [← List.append_assoc, ← List.append_assoc]
      exact .more (.mk (isBlank_append hb hb₁) hv hb₂) ht

theorem writesEntries_blank {es : List (String × Json)} (hb : IsBlank b) (h : WritesEntries n s es) :
    WritesEntries n (b ++ s) es := by
  cases h with
  | one h =>
      obtain ⟨hb₁, hk, hb₂, hv⟩ := h
      rw [← List.append_assoc]
      exact .one (.mk (isBlank_append hb hb₁) hk hb₂ hv)
  | more h ht =>
      obtain ⟨hb₁, hk, hb₂, hv⟩ := h
      rw [← List.append_assoc, ← List.append_assoc]
      exact .more (.mk (isBlank_append hb hb₁) hk hb₂ hv) ht

mutual

/-- What is read as a value writes that value, after blanks. -/
theorem writes_of_value {c : Cursor} {opened n : Nat} {r : Reading Json c}
    (hn : opened + n = maxLevels) (h : value opened c = .ok r) :
    ∃ b s, c.Passes (b ++ s) r.stop ∧ IsBlank b ∧ Writes n s r.value := by
  obtain ⟨b, hb, hblank⟩ := passes_skipBlank c
  obtain ⟨x, d, hx⟩ := exists_of_value h
  obtain ⟨b', hb', hblank'⟩ := passes_skipBlank d
  have hlt := length_lt_of_passes hb hx
  by_cases hx₁ : x = '['
  · subst hx₁
    obtain ⟨ho, ⟨hp, hv⟩ | ⟨vs, hvs, hp, hv⟩⟩ := items_of_value hx h
    · obtain ⟨m, rfl⟩ : ∃ m, n = m + 1 := ⟨n - 1, by omega⟩
      exact ⟨b, _, hb.trans (hx.trans (hb'.trans hp)), hblank, hv ▸ .emptyArray hblank'⟩
    · obtain ⟨m, rfl⟩ : ∃ m, n = m + 1 := ⟨n - 1, by omega⟩
      obtain ⟨s, hs, hw⟩ := writesItems_of_items (n := m) (by omega) hvs
      refine ⟨b, '[' :: ((b' ++ s) ++ [']']), ?_, hblank, hv ▸ .array (writesItems_blank hblank' hw)⟩
      rw [List.append_assoc b']
      exact hb.trans (hx.trans (hb'.trans (hp ▸ hs)))
  · by_cases hx₂ : x = '{'
    · subst hx₂
      obtain ⟨ho, ⟨hp, hv⟩ | ⟨es, hes, hp, hv⟩⟩ := entries_of_value hx h
      · obtain ⟨m, rfl⟩ : ∃ m, n = m + 1 := ⟨n - 1, by omega⟩
        exact ⟨b, _, hb.trans (hx.trans (hb'.trans hp)), hblank, hv ▸ .emptyObject hblank'⟩
      · obtain ⟨m, rfl⟩ : ∃ m, n = m + 1 := ⟨n - 1, by omega⟩
        obtain ⟨s, hs, hw⟩ := writesEntries_of_entries (n := m) (by omega) hes
        refine ⟨b, '{' :: ((b' ++ s) ++ ['}']), ?_, hblank, hv ▸ .object (writesEntries_blank hblank' hw)⟩
        rw [List.append_assoc b']
        exact hb.trans (hx.trans (hb'.trans (hp ▸ hs)))
    · obtain ⟨s, hs, hw⟩ := writes_of_scalar (n := n) hx h hx₁ hx₂
      exact ⟨b, s, hb.trans hs, hblank, hw⟩
termination_by (c.rest.length, 0)
decreasing_by
  all_goals exact Prod.Lex.left _ _ hlt

theorem writesItems_of_items {c : Cursor} {opened n : Nat} {r : Reading (List Json) c}
    (hn : opened + n = maxLevels) (h : items opened c = .ok r) :
    ∃ s, c.Passes (s ++ [']']) r.stop ∧ WritesItems n s r.value := by
  obtain ⟨v, hv, hrest⟩ := exists_of_items h
  obtain ⟨b, s, hs, hb, hw⟩ := writes_of_value hn hv
  obtain ⟨b', hb', hblank⟩ := passes_skipBlank v.stop
  have hp : c.Passes (b ++ (s ++ b')) (skipBlank v.stop) := by
    rw [← List.append_assoc]
    exact hs.trans hb'
  rcases hrest with ⟨hclose, hr⟩ | ⟨e, vs, hcomma, hvs, hstop, hr⟩
  · exact ⟨_, hp.trans hclose, hr ▸ .one (.mk hb hw hblank)⟩
  · have hlt := length_lt_of_passes hp hcomma
    obtain ⟨b'', hb'', hblank'⟩ := passes_skipBlank e
    obtain ⟨t, ht, hitems⟩ := writesItems_of_items hn hvs
    refine ⟨(b ++ (s ++ b')) ++ ',' :: (b'' ++ t), ?_, ?_⟩
    · rw [hstop]
      simpa only [List.append_assoc, List.cons_append, List.nil_append] using
        hp.trans (hcomma.trans (hb''.trans ht))
    · rw [hr]
      exact .more (.mk hb hw hblank) (writesItems_blank hblank' hitems)
termination_by (c.rest.length, 1)
decreasing_by
  · exact Prod.Lex.right _ Nat.zero_lt_one
  · exact Prod.Lex.left _ _ hlt

theorem writesEntries_of_entries {c : Cursor} {opened n : Nat}
    {r : Reading (List (String × Json)) c} (hn : opened + n = maxLevels)
    (h : entries opened c = .ok r) :
    ∃ s, c.Passes (s ++ ['}']) r.stop ∧ WritesEntries n s r.value := by
  obtain ⟨k, v, hk, hv, hrest⟩ := exists_of_entries h
  obtain ⟨q, u, cs, hq, hu, hchars, hkey⟩ := passes_of_key hk
  obtain ⟨b, s, hs, hb, hw⟩ := writes_of_value hn hv
  obtain ⟨b', hb', hblank⟩ := passes_skipBlank v.stop
  have hentry : WritesEntry n (('"' :: (q ++ ['"'])) ++ (u ++ ':' :: (b ++ (s ++ b'))))
      (k.value, v.value) :=
    hkey ▸ .mk (b := []) (fun _ hx => nomatch hx) hchars hu (.mk hb hw hblank)
  have hp : c.Passes (('"' :: (q ++ ['"'])) ++ (u ++ ':' :: (b ++ (s ++ b'))))
      (skipBlank v.stop) := by
    have := hq.trans (hs.trans hb')
    simpa only [List.append_assoc, List.cons_append, List.nil_append] using this
  rcases hrest with ⟨hclose, hr⟩ | ⟨e, es, hcomma, hes, hstop, hr⟩
  · exact ⟨_, hp.trans hclose, hr ▸ .one hentry⟩
  · have hlt := length_lt_of_passes hp hcomma
    obtain ⟨b'', hb'', hblank'⟩ := passes_skipBlank e
    obtain ⟨t, ht, hentries⟩ := writesEntries_of_entries hn hes
    refine ⟨(('"' :: (q ++ ['"'])) ++ (u ++ ':' :: (b ++ (s ++ b')))) ++ ',' :: (b'' ++ t), ?_, ?_⟩
    · rw [hstop]
      simpa only [List.append_assoc, List.cons_append, List.nil_append] using
        hp.trans (hcomma.trans (hb''.trans ht))
    · rw [hr]
      exact .more hentry (writesEntries_blank hblank' hentries)
termination_by (c.rest.length, 1)
decreasing_by
  · rcases Nat.lt_or_eq_of_le (Cursor.length_le k.ahead) with h | h
    · exact Prod.Lex.left _ _ h
    · exact h ▸ Prod.Lex.right _ Nat.zero_lt_one
  · exact Prod.Lex.left _ _ hlt

end

end SigilCall.Json.Read
