import SigilCall.Proofs.Json.Reading
import SigilCall.Proofs.Json.Writes

namespace SigilCall.Json.Read

open Text

variable {c d e : Cursor} {s t : List Char} {x y : Char} {n : Nat}

theorem utf8Size_of_hexDigit? (h : (hexDigit? x).isSome = true) : x.utf8Size = 1 := by
  rw [Char.utf8Size_eq_one_iff, UInt32.le_iff_toNat_le]
  change x.toNat ≤ 127
  rw [hexDigit?] at h
  split at h
  · next hx =>
      simp only [Char.isDigit, Bool.and_eq_true, decide_eq_true_eq, UInt32.le_iff_toNat_le] at hx
      have h9 : x.toNat ≤ 57 := hx.2
      omega
  · split at h
    · next hx =>
        have hf : x.toNat ≤ 102 := Char.le_def.mp hx.2
        omega
    · split at h
      · next hx =>
          have hf : x.toNat ≤ 70 := Char.le_def.mp hx.2
          omega
      · cases h

theorem byteLength_of_hexDigits (h : ∀ x ∈ s, (hexDigit? x).isSome = true) :
    byteLength s = s.length := by
  induction s with
  | nil => rfl
  | cons x s ih =>
      rw [byteLength, List.length_cons, utf8Size_of_hexDigit? (h x (by simp)),
        ih fun y hy => h y (by simp [hy])]
      omega

theorem writesUnit_of_hexUnit {r : Reading Nat c} (h : hexUnit c = .ok r) :
    ∃ t, c.Passes t r.stop ∧ WritesUnit t r.value := by
  rw [hexUnit] at h
  split at h
  · cases h
  · next hw =>
      split at h
      · cases h
      · next n hn =>
          cases h
          refine ⟨c.rest.take 4, ⟨(List.take_append_drop 4 c.rest).symm, rfl⟩, ?_, hn⟩
          rw [byteLength_of_hexDigits (isSome_hexDigit?_of_hexValue? hn)] at hw
          have := c.rest.length_take_le 4
          omega

theorem hexUnit_of_writesUnit (h : WritesUnit t n) (hp : c.Passes t d) : Yields (hexUnit c) n d := by
  have ht : c.rest.take 4 = t := by rw [hp.1, ← h.1, List.take_left]
  have hs : c.skip 4 = d := by
    refine Cursor.Passes.unique (t := t) ⟨?_, ?_⟩ hp
    · rw [Cursor.skip, ← ht, List.take_append_drop]
    · rw [Cursor.skip, ht]
  have hl : ¬ byteLength t < 4 := by
    have := length_le_byteLength t
    have := h.1
    omega
  refine ⟨hp.le, ?_⟩
  rw [hexUnit]
  simp only [ht, if_neg hl, h.2]
  subst hs
  rfl

theorem passes_of_second {r : Reading Unit c} (h : second x c = .ok r) : c.Passes [x] r.stop := by
  rw [second] at h
  split at h
  · cases h
  · next y d hy =>
      split at h
      · next hx =>
          cases h
          exact hx ▸ Cursor.next?_eq_some_iff.mp hy
      · cases h

theorem second_of_passes (h : c.Passes [x] d) : Yields (second x c) () d := by
  refine ⟨h.le, ?_⟩
  rw [second]
  split
  · next hn =>
      rw [Cursor.next?_eq_some_iff.mpr h] at hn
      cases hn
  · next y e hn =>
      rw [Cursor.next?_eq_some_iff.mpr h] at hn
      cases hn
      rw [if_pos rfl]

theorem writesUnit_of_trailingUnit {r : Reading Nat c} (h : trailingUnit c = .ok r) :
    ∃ t, c.Passes ('\\' :: 'u' :: t) r.stop ∧ WritesUnit t r.value ∧ isTrailing r.value = true := by
  obtain ⟨b, hb, h⟩ := Except.bind_eq_ok_iff.mp h
  obtain ⟨u, hu, h⟩ := Except.bind_eq_ok_iff.mp h
  obtain ⟨m, hm, h⟩ := Except.bind_eq_ok_iff.mp h
  split at h
  · next ht =>
      cases h
      obtain ⟨t, hp, hw⟩ := writesUnit_of_hexUnit hm
      exact ⟨t, (passes_of_second hb).trans ((passes_of_second hu).trans hp), hw, ht⟩
  · cases h

theorem trailingUnit_of_writesUnit (h : WritesUnit t n) (hn : isTrailing n = true)
    (hp : c.Passes ('\\' :: 'u' :: t) d) : Yields (trailingUnit c) n d := by
  obtain ⟨e, he, hp'⟩ := hp.split_cons
  obtain ⟨f, hf, hd⟩ := hp'.split_cons
  obtain ⟨h₁, e₁⟩ := second_of_passes he
  obtain ⟨h₂, e₂⟩ := second_of_passes hf
  obtain ⟨h₃, e₃⟩ := hexUnit_of_writesUnit h hd
  refine ⟨hp.le, ?_⟩
  simp only [trailingUnit, e₁, e₂, e₃, Except.ok_bind, hn, if_true]
  rfl

/-- The character of an escape, from after its backslash and the letter `u`. -/
theorem writesChar_of_unicode {r : Reading Char c} (h : unicode c = .ok r) :
    ∃ t, c.Passes t r.stop ∧ WritesChar ('\\' :: 'u' :: t) r.value := by
  obtain ⟨n, hn, h⟩ := Except.bind_eq_ok_iff.mp h
  obtain ⟨s, hs, hu⟩ := writesUnit_of_hexUnit hn
  split at h
  · cases h
  · next ht =>
      split at h
      · next hl =>
          obtain ⟨m, hm, h⟩ := Except.bind_eq_ok_iff.mp h
          obtain ⟨t, hp, hv, hr⟩ := writesUnit_of_trailingUnit hm
          have hw := WritesChar.pair hu (Bool.not_eq_true _ ▸ ht) hl hv hr
          rw [← Except.ok.inj h]
          dsimp only
          exact ⟨_, hs.trans hp, hw⟩
      · next hl =>
          cases h
          exact ⟨s, hs, .unicode hu (Bool.not_eq_true _ ▸ ht) (Bool.not_eq_true _ ▸ hl)⟩

theorem writesChar_of_escape {r : Reading Char c} (h : escape c = .ok r) :
    ∃ t, c.Passes t r.stop ∧ WritesChar ('\\' :: t) r.value := by
  rw [escape] at h
  split at h
  · cases h
  · next x d hx =>
      have hp := Cursor.next?_eq_some_iff.mp hx
      split at h
      · next y hy =>
          cases h
          exact ⟨[x], hp, .escape hy⟩
      · split at h
        · next hu =>
            obtain ⟨r', hr, rfl⟩ := Except.map_eq_ok_iff.mp h
            obtain ⟨t, ht, hw⟩ := writesChar_of_unicode hr
            subst hu
            exact ⟨'u' :: t, hp.trans ht, hw⟩
        · cases h

theorem unicode_of_writesUnit (h : WritesUnit t n) (ht : isTrailing n = false)
    (hl : isLeading n = false) (hp : c.Passes t d) : Yields (unicode c) (.ofNat n) d := by
  obtain ⟨h₁, e₁⟩ := hexUnit_of_writesUnit h hp
  refine ⟨hp.le, ?_⟩
  simp only [unicode, e₁, Except.ok_bind, ht, hl, if_false, Bool.false_eq_true]
  rfl

theorem unicode_of_pair {m : Nat} (h : WritesUnit s n) (ht : isTrailing n = false)
    (hl : isLeading n = true) (h' : WritesUnit t m) (hm : isTrailing m = true)
    (hp : c.Passes (s ++ '\\' :: 'u' :: t) d) :
    Yields (unicode c) (.ofNat (0x10000 + 0x400 * (n - 0xd800) + (m - 0xdc00))) d := by
  obtain ⟨e, he, hd⟩ := hp.split
  obtain ⟨h₁, e₁⟩ := hexUnit_of_writesUnit h he
  obtain ⟨h₂, e₂⟩ := trailingUnit_of_writesUnit h' hm hd
  refine ⟨hp.le, ?_⟩
  simp only [unicode, e₁, e₂, Except.ok_bind, ht, hl, if_false, if_true, Bool.false_eq_true]
  rfl

/-- What an escape does once the letter after the backslash is known. -/
theorem escape_eq (hp : c.Passes [x] d) :
    escape c = match escaped? x with
      | some y => .ok ⟨y, d, hp.le⟩
      | none => if x = 'u' then (unicode d).map (.since hp.le) else fail .invalidEscape c := by
  rw [escape]
  split
  · next hn =>
      rw [Cursor.next?_eq_some_iff.mpr hp] at hn
      cases hn
  · next y e hn =>
      rw [Cursor.next?_eq_some_iff.mpr hp] at hn
      cases hn
      rfl

theorem escape_of_unicode {y : Char} (hp : c.Passes ['u'] d) (h : Yields (unicode d) y e) :
    Yields (escape c) y e := by
  obtain ⟨h₁, e₁⟩ := h
  refine ⟨Cursor.le_trans hp.le h₁, ?_⟩
  rw [escape_eq hp, e₁]
  rfl

theorem escape_of_writesChar (h : WritesChar ('\\' :: t) y) (hp : c.Passes t d) :
    Yields (escape c) y d := by
  cases h with
  | plain _ hb _ => exact absurd rfl hb
  | escape hx =>
      refine ⟨hp.le, ?_⟩
      rw [escape_eq hp, hx]
  | unicode hu ht hl =>
      obtain ⟨e, he, hd⟩ := hp.split_cons
      exact escape_of_unicode he (unicode_of_writesUnit hu ht hl hd)
  | pair hu ht hl hv hm =>
      obtain ⟨e, he, hd⟩ := hp.split_cons
      exact escape_of_unicode he (unicode_of_pair hu ht hl hv hm hd)

theorem quoted_eq (hp : c.Passes [x] d) :
    quoted c =
      if x = '"' then .ok ⟨[], d, hp.le⟩
      else if x = '\\' then do
        let y ← escape d
        let r ← quoted y.stop
        return (r.map (y.value :: ·)).since (Cursor.le_trans hp.le y.ahead)
      else if x.toNat < 0x20 then fail .controlCharacter c
      else do
        let r ← quoted d
        return (r.map (x :: ·)).since hp.le := by
  rw [quoted]
  split
  · next hn =>
      rw [Cursor.next?_eq_some_iff.mpr hp] at hn
      cases hn
  · next y e hn =>
      rw [Cursor.next?_eq_some_iff.mpr hp] at hn
      cases hn
      rfl

theorem writesChars_of_quoted {r : Reading (List Char) c} (h : quoted c = .ok r) :
    ∃ t, c.Passes (t ++ ['"']) r.stop ∧ WritesChars t r.value := by
  induction c using quoted.induct with
  | case1 c hn =>
      rw [quoted] at h
      split at h
      · cases h
      · next hx =>
          rw [hn] at hx
          cases hx
  | case2 c d hx =>
      have hp := Cursor.next?_eq_some_iff.mp hx
      rw [quoted_eq hp, if_pos rfl] at h
      cases h
      exact ⟨[], hp, .nil⟩
  | case3 c d hx hq ih =>
      have hp := Cursor.next?_eq_some_iff.mp hx
      rw [quoted_eq hp, if_neg hq, if_pos rfl] at h
      obtain ⟨y, hy, h⟩ := Except.bind_eq_ok_iff.mp h
      obtain ⟨r', hr, h⟩ := Except.bind_eq_ok_iff.mp h
      cases h
      obtain ⟨s, hs, hw⟩ := writesChar_of_escape hy
      obtain ⟨t, ht, hws⟩ := ih y hr
      refine ⟨('\\' :: s) ++ t, ?_, .cons hw hws⟩
      rw [List.append_assoc]
      exact (hp.trans hs).trans ht
  | case4 c x d hx hq hb hl =>
      rw [quoted_eq (Cursor.next?_eq_some_iff.mp hx), if_neg hq, if_neg hb, if_pos hl] at h
      cases h
  | case5 c x d hx hq hb hl ih =>
      have hp := Cursor.next?_eq_some_iff.mp hx
      rw [quoted_eq hp, if_neg hq, if_neg hb, if_neg hl] at h
      obtain ⟨r', hr, h⟩ := Except.bind_eq_ok_iff.mp h
      cases h
      obtain ⟨t, ht, hws⟩ := ih hr
      exact ⟨[x] ++ t, hp.trans ht, .cons (.plain hq hb (Nat.le_of_not_lt hl)) hws⟩

theorem quoted_of_writesChars {cs : List Char} (h : WritesChars t cs)
    (hp : c.Passes (t ++ ['"']) d) : Yields (quoted c) cs d := by
  induction h generalizing c with
  | nil =>
      refine ⟨hp.le, ?_⟩
      rw [quoted_eq hp, if_pos rfl]
  | @cons s t y cs hy hcs ih =>
      rw [List.append_assoc] at hp
      obtain ⟨e, he, hd⟩ := hp.split
      obtain ⟨h₂, e₂⟩ := ih hd
      by_cases hplain : ∃ s', s = '\\' :: s'
      · obtain ⟨s', rfl⟩ := hplain
        obtain ⟨f, hf, he'⟩ := he.split_cons
        obtain ⟨h₁, e₁⟩ := escape_of_writesChar hy he'
        refine ⟨hp.le, ?_⟩
        rw [quoted_eq hf, if_neg (by decide), if_pos rfl]
        simp only [e₁, e₂, Except.ok_bind]
        rfl
      · cases hy with
        | plain hq hb hl =>
            refine ⟨hp.le, ?_⟩
            rw [quoted_eq he, if_neg hq, if_neg hb, if_neg (Nat.not_lt.mpr hl)]
            simp only [e₂, Except.ok_bind]
            rfl
        | escape | unicode | pair => exact absurd ⟨_, rfl⟩ hplain

end SigilCall.Json.Read
