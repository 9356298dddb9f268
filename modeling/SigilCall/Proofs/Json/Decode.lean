import SigilCall.Proofs.Json.Value

namespace SigilCall.Json.Read

open Text

variable {c d e : Cursor} {s t b : List Char} {x : Char} {n opened : Nat}

theorem isBlank_iff : isBlank x = true ↔ x = ' ' ∨ x = '\t' ∨ x = '\n' ∨ x = '\r' := by
  simp only [isBlank, Bool.or_eq_true, beq_iff_eq, or_assoc]

theorem isNumberTail_of_isBlank (h : isBlank x = true) : isNumberTail x = false := by
  rcases isBlank_iff.mp h with rfl | rfl | rfl | rfl <;> rfl

/-- A number goes no further than the blanks and the separator after it. -/
theorem halts_isNumberTail (hb : IsBlank b) (hx : isNumberTail x = false) :
    Halts isNumberTail (b ++ x :: s) :=
  halts_append (fun y hy => isNumberTail_of_isBlank (hb y hy)) hx

theorem isWhole_cons {w : List Char} (h : IsWhole w) : ∃ x t, w = x :: t ∧ x.isDigit = true := by
  obtain ⟨x, t, rfl⟩ := List.exists_cons_of_ne_nil h.1.1
  exact ⟨x, t, rfl, h.1.2 x (by simp)⟩

theorem exists_cons_of_writesNumeral {y : Numeral} (h : WritesNumeral s y) :
    ∃ x t, s = x :: t ∧ (x = '-' ∨ x.isDigit = true) := by
  cases h with
  | positive hw _ _ =>
      obtain ⟨x, t, rfl, hx⟩ := isWhole_cons hw
      exact ⟨x, _, rfl, .inr hx⟩
  | negative => exact ⟨'-', _, rfl, .inl rfl⟩

def isStart (x : Char) : Bool := !isBlank x && x != ']' && x != '}'

theorem exists_cons_of_writes {v : Json} (h : Writes n s v) : ∃ x t, s = x :: t ∧ isStart x = true := by
  cases h with
  | number h _ =>
      obtain ⟨x, t, rfl, rfl | hx⟩ := exists_cons_of_writesNumeral h
      · exact ⟨_, _, rfl, rfl⟩
      · refine ⟨x, t, rfl, ?_⟩
        simp only [isStart, Bool.and_eq_true, Bool.not_eq_true', bne_iff_ne]
        refine ⟨⟨Bool.eq_false_iff.mpr fun hb => ?_, ?_⟩, ?_⟩
        · rcases isBlank_iff.mp hb with rfl | rfl | rfl | rfl <;> cases hx
        · rintro rfl
          cases hx
        · rintro rfl
          cases hx
  | _ => exact ⟨_, _, rfl, rfl⟩

theorem isBlank_of_isStart (h : isStart x = true) : isBlank x = false := by
  simp only [isStart, Bool.and_eq_true, Bool.not_eq_true'] at h
  exact h.1.1

@[simp] theorem isBlank_nil : IsBlank [] := by
  intro x hx
  cases hx

theorem exists_start_of_writesItems {vs : List Json} (h : WritesItems n s vs) :
    ∃ b x t, s = b ++ x :: t ∧ IsBlank b ∧ isStart x = true := by
  cases h with
  | one h =>
      obtain ⟨hb, hv, -⟩ := h
      obtain ⟨x, t, rfl, hx⟩ := exists_cons_of_writes hv
      exact ⟨_, x, _, rfl, hb, hx⟩
  | more h _ =>
      obtain ⟨hb, hv, -⟩ := h
      obtain ⟨x, t, rfl, hx⟩ := exists_cons_of_writes hv
      rw [List.append_assoc]
      exact ⟨_, x, _, rfl, hb, hx⟩

theorem exists_start_of_writesEntries {es : List (String × Json)} (h : WritesEntries n s es) :
    ∃ b t, s = b ++ '"' :: t ∧ IsBlank b := by
  cases h with
  | one h =>
      obtain ⟨hb, -, -, -⟩ := h
      exact ⟨_, _, rfl, hb⟩
  | more h _ =>
      obtain ⟨hb, -, -, -⟩ := h
      rw [List.append_assoc]
      exact ⟨_, _, rfl, hb⟩

theorem peek?_of_writesItems {vs : List Json} (h : WritesItems n s vs) (hp : c.Passes (s ++ t) d) :
    ∃ x, (skipBlank c).peek? = some x ∧ x ≠ ']' := by
  obtain ⟨b, x, u, rfl, hb, hx⟩ := exists_start_of_writesItems h
  rw [List.append_assoc] at hp
  obtain ⟨e, he, hd⟩ := hp.split
  obtain rfl : skipBlank c = e :=
    skipBlank_eq he hb (by rw [hd.1]; exact halts_cons.mpr (isBlank_of_isStart hx))
  refine ⟨x, by rw [Cursor.peek?, hd.1]; rfl, ?_⟩
  rintro rfl
  cases hx

theorem peek?_of_writesEntries {es : List (String × Json)} (h : WritesEntries n s es)
    (hp : c.Passes (s ++ t) d) : (skipBlank c).peek? = some '"' := by
  obtain ⟨b, u, rfl, hb⟩ := exists_start_of_writesEntries h
  rw [List.append_assoc] at hp
  obtain ⟨e, he, hd⟩ := hp.split
  obtain rfl : skipBlank c = e := skipBlank_eq he hb (by rw [hd.1]; exact halts_cons.mpr rfl)
  rw [Cursor.peek?, hd.1]
  rfl

/-- What is read for a list once its first value and the character after that are known. -/
theorem items_eq {r : Reading Json c} (hv : value opened c = .ok r)
    (hx : (skipBlank r.stop).Passes [x] e) :
    items opened c =
      have hce : c ≤ e := Cursor.le_trans r.ahead (Cursor.le_trans (le_skipBlank _) hx.le)
      if x = ']' then .ok ⟨[r.value], e, hce⟩
      else if x = ',' then
        if (skipBlank e).peek? = some ']' then fail .trailingComma (skipBlank e)
        else do
          let vs ← items opened (skipBlank e)
          return (vs.map (r.value :: ·)).since (Cursor.le_trans hce (le_skipBlank e))
      else fail .expectedListComma (skipBlank r.stop) := by
  rw [items, hv]
  simp only [Except.ok_bind]
  split
  · next hn =>
      rw [Cursor.next?_eq_some_iff.mpr hx] at hn
      cases hn
  · next y f hn =>
      rw [Cursor.next?_eq_some_iff.mpr hx] at hn
      cases hn
      rfl

theorem entries_eq {k : Reading String c} {r : Reading Json k.stop} (hk : key c = .ok k)
    (hv : value opened k.stop = .ok r) (hx : (skipBlank r.stop).Passes [x] e) :
    entries opened c =
      have hce : c ≤ e := Cursor.le_trans k.ahead
        (Cursor.le_trans r.ahead (Cursor.le_trans (le_skipBlank _) hx.le))
      if x = '}' then .ok ⟨[(k.value, r.value)], e, hce⟩
      else if x = ',' then
        if (skipBlank e).peek? = some '}' then fail .trailingComma (skipBlank e)
        else do
          let es ← entries opened (skipBlank e)
          return (es.map ((k.value, r.value) :: ·)).since (Cursor.le_trans hce (le_skipBlank e))
      else fail .expectedObjectComma (skipBlank r.stop) := by
  rw [entries, hk]
  simp only [Except.ok_bind, hv]
  split
  · next hn =>
      rw [Cursor.next?_eq_some_iff.mpr hx] at hn
      cases hn
  · next y f hn =>
      rw [Cursor.next?_eq_some_iff.mpr hx] at hn
      cases hn
      rfl

theorem array_eq {f : Cursor} (ho : opened < maxLevels) (hx : (skipBlank c).Passes ['['] f)
    (hy : (skipBlank f).Passes [x] e) :
    value opened c =
      have hcf : c ≤ skipBlank f :=
        Cursor.le_trans (Cursor.le_trans (le_skipBlank c) hx.le) (le_skipBlank f)
      if x = ']' then .ok ⟨.array [], e, Cursor.le_trans hcf hy.le⟩
      else do
        let vs ← items (opened + 1) (skipBlank f)
        return (vs.map .array).since hcf := by
  rw [value_eq hx]
  simp only [if_false, if_true, Char.reduceEq, Char.reduceIsDigit, or_self, Bool.false_eq_true,
    if_neg (Nat.not_le.mpr ho)]
  split
  · next hn =>
      rw [Cursor.next?_eq_some_iff.mpr hy] at hn
      cases hn
  · next y g hn =>
      rw [Cursor.next?_eq_some_iff.mpr hy] at hn
      cases hn
      rfl

theorem object_eq {f : Cursor} (ho : opened < maxLevels) (hx : (skipBlank c).Passes ['{'] f)
    (hy : (skipBlank f).Passes [x] e) :
    value opened c =
      have hcf : c ≤ skipBlank f :=
        Cursor.le_trans (Cursor.le_trans (le_skipBlank c) hx.le) (le_skipBlank f)
      if x = '}' then .ok ⟨.object [], e, Cursor.le_trans hcf hy.le⟩
      else do
        let es ← entries (opened + 1) (skipBlank f)
        return (es.map fun es => .object (collect es)).since hcf := by
  rw [value_eq hx]
  simp only [if_false, if_true, Char.reduceEq, Char.reduceIsDigit, or_self, Bool.false_eq_true,
    if_neg (Nat.not_le.mpr ho)]
  split
  · next hn =>
      rw [Cursor.next?_eq_some_iff.mpr hy] at hn
      cases hn
  · next y g hn =>
      rw [Cursor.next?_eq_some_iff.mpr hy] at hn
      cases hn
      rfl

theorem array_of_items {f : Cursor} {vs : List Json} (ho : opened < maxLevels)
    (hx : (skipBlank c).Passes ['['] f) (hy : (skipBlank f).peek? = some x) (hne : x ≠ ']')
    (h : Yields (items (opened + 1) (skipBlank f)) vs d) : Yields (value opened c) (.array vs) d := by
  obtain ⟨e, he⟩ := Cursor.exists_passes_of_peek? hy
  obtain ⟨hd, hvs⟩ := h
  rw [array_eq ho hx he, if_neg hne, hvs]
  exact ⟨Cursor.le_trans (Cursor.le_trans (le_skipBlank c) hx.le)
    (Cursor.le_trans (le_skipBlank f) hd), rfl⟩

theorem object_of_entries {f : Cursor} {es : List (String × Json)} (ho : opened < maxLevels)
    (hx : (skipBlank c).Passes ['{'] f) (hy : (skipBlank f).peek? = some x) (hne : x ≠ '}')
    (h : Yields (entries (opened + 1) (skipBlank f)) es d) :
    Yields (value opened c) (.object (collect es)) d := by
  obtain ⟨e, he⟩ := Cursor.exists_passes_of_peek? hy
  obtain ⟨hd, hes⟩ := h
  rw [object_eq ho hx he, if_neg hne, hes]
  exact ⟨Cursor.le_trans (Cursor.le_trans (le_skipBlank c) hx.le)
    (Cursor.le_trans (le_skipBlank f) hd), rfl⟩

theorem array_of_nil {f : Cursor} (ho : opened < maxLevels) (hx : (skipBlank c).Passes ['['] f)
    (hy : (skipBlank f).Passes [']'] d) : Yields (value opened c) (.array []) d := by
  rw [array_eq ho hx hy]
  exact ⟨_, rfl⟩

theorem object_of_nil {f : Cursor} (ho : opened < maxLevels) (hx : (skipBlank c).Passes ['{'] f)
    (hy : (skipBlank f).Passes ['}'] d) : Yields (value opened c) (.object []) d := by
  rw [object_eq ho hx hy]
  exact ⟨_, rfl⟩

@[simp] theorem skipBlank_skipBlank (c : Cursor) : skipBlank (skipBlank c) = skipBlank c :=
  Cursor.skipWhile_of_halts (Cursor.halts_skipWhile isBlank c)

theorem exists_key {cs b' t : List Char} (hb : IsBlank b) (hs : WritesChars s cs) (hb' : IsBlank b')
    (hp : c.Passes (b ++ (('"' :: (s ++ ['"'])) ++ (b' ++ ':' :: t))) d) :
    ∃ e, Yields (key (skipBlank c)) (.ofList cs) e ∧ e.Passes t d := by
  obtain ⟨e, he, hp'⟩ := hp.split
  obtain rfl : skipBlank c = e := skipBlank_eq he hb (by rw [hp'.1]; exact halts_cons.mpr rfl)
  rw [← List.singleton_append (l := t), ← List.append_assoc b', ← List.append_assoc] at hp'
  obtain ⟨f, hf, hd⟩ := hp'.split
  exact ⟨f, key_of_passes hs hb' hf, hd⟩

def ValueRead (n : Nat) (s : List Char) (v : Json) : Prop :=
  ∀ ⦃c d opened b⦄, opened + n ≤ maxLevels → IsBlank b → c.Passes (b ++ s) d →
    Halts isNumberTail d.rest → Yields (value opened c) v d

def ElementRead (n : Nat) (s : List Char) (v : Json) : Prop :=
  ∀ ⦃c c' d opened x⦄, opened + n ≤ maxLevels → c.Passes s d → skipBlank c' = skipBlank c →
    d.rest.head? = some x → isBlank x = false → isNumberTail x = false →
    ∃ r : Reading Json c', value opened c' = .ok r ∧ r.value = v ∧ skipBlank r.stop = d

def ItemsRead (n : Nat) (s : List Char) (vs : List Json) : Prop :=
  ∀ ⦃c d opened⦄, opened + n ≤ maxLevels → c.Passes (s ++ [']']) d →
    Yields (items opened (skipBlank c)) vs d

def EntryRead (n : Nat) (s : List Char) (e : String × Json) : Prop :=
  ∀ ⦃c d opened x⦄, opened + n ≤ maxLevels → c.Passes s d → d.rest.head? = some x →
    isBlank x = false → isNumberTail x = false →
    ∃ (k : Reading String (skipBlank c)) (r : Reading Json k.stop), key (skipBlank c) = .ok k ∧
      value opened k.stop = .ok r ∧ (k.value, r.value) = e ∧ skipBlank r.stop = d

def EntriesRead (n : Nat) (s : List Char) (es : List (String × Json)) : Prop :=
  ∀ ⦃c d opened⦄, opened + n ≤ maxLevels → c.Passes (s ++ ['}']) d →
    Yields (entries opened (skipBlank c)) es d

/-- After its blanks a value starts with its first character. -/
theorem passes_of_writes {v : Json} (h : Writes n s v) (hb : IsBlank b) (hp : c.Passes (b ++ s) d) :
    (skipBlank c).Passes s d := by
  obtain ⟨x, t, rfl, hx⟩ := exists_cons_of_writes h
  obtain ⟨e, he, hd⟩ := hp.split
  obtain rfl : skipBlank c = e := skipBlank_eq he hb (by
    rw [hd.1]
    exact halts_cons.mpr (isBlank_of_isStart hx))
  exact hd

theorem valueRead_null : ValueRead n ['n', 'u', 'l', 'l'] .null := by
  intro c d opened b ho hb hp _
  obtain ⟨f, hf, hd⟩ := (passes_of_writes (n := n) .null hb hp).split_cons
  obtain ⟨_, e₁⟩ := word_of_passes hd
  refine ⟨hp.le, ?_⟩
  rw [value_eq hf, if_pos rfl, e₁]
  rfl

theorem valueRead_true : ValueRead n ['t', 'r', 'u', 'e'] (.bool true) := by
  intro c d opened b ho hb hp _
  obtain ⟨f, hf, hd⟩ := (passes_of_writes (n := n) .true hb hp).split_cons
  obtain ⟨_, e₁⟩ := word_of_passes hd
  refine ⟨hp.le, ?_⟩
  rw [value_eq hf, if_neg (by decide), if_pos rfl, e₁]
  rfl

theorem valueRead_false : ValueRead n ['f', 'a', 'l', 's', 'e'] (.bool false) := by
  intro c d opened b ho hb hp _
  obtain ⟨f, hf, hd⟩ := (passes_of_writes (n := n) .false hb hp).split_cons
  obtain ⟨_, e₁⟩ := word_of_passes hd
  refine ⟨hp.le, ?_⟩
  rw [value_eq hf, if_neg (by decide), if_neg (by decide), if_pos rfl, e₁]
  rfl

theorem valueRead_string {cs : List Char} (h : WritesChars s cs) :
    ValueRead n ('"' :: (s ++ ['"'])) (.string (.ofList cs)) := by
  intro c d opened b ho hb hp _
  obtain ⟨f, hf, hd⟩ := (passes_of_writes (n := n) (.string h) hb hp).split_cons
  obtain ⟨_, e₁⟩ := quoted_of_writesChars h hd
  refine ⟨hp.le, ?_⟩
  rw [value_eq hf, if_neg (by decide), if_neg (by decide), if_neg (by decide), if_pos rfl, e₁]
  rfl

theorem valueRead_number {y : Numeral} {z : Number} (h : WritesNumeral s y)
    (hz : y.number? = some z) : ValueRead n s (.number z) := by
  intro c d opened b ho hb hp hd
  have has := passes_of_writes (n := n) (.number h hz) hb hp
  obtain ⟨x, t, rfl, hx⟩ := exists_cons_of_writesNumeral h
  obtain ⟨f, hf, -⟩ := has.split_cons
  obtain ⟨_, e₁⟩ := number_of_writesNumeral h hz has hd
  have hne : x ≠ 'n' ∧ x ≠ 't' ∧ x ≠ 'f' ∧ x ≠ '"' := by
    refine ⟨?_, ?_, ?_, ?_⟩ <;> rintro rfl <;> rcases hx with h | h <;> cases h
  refine ⟨hp.le, ?_⟩
  rw [value_eq hf, if_neg hne.1, if_neg hne.2.1, if_neg hne.2.2.1, if_neg hne.2.2.2, if_pos hx, e₁]
  rfl

theorem valueRead_emptyArray (h : IsBlank s) : ValueRead (n + 1) ('[' :: (s ++ [']'])) (.array []) := by
  intro c d opened b ho hb hp _
  obtain ⟨f, hf, hd⟩ := (passes_of_writes (n := n + 1) (.emptyArray h) hb hp).split_cons
  obtain ⟨g, hg, hclose⟩ := hd.split
  obtain rfl : skipBlank f = g := skipBlank_eq hg h (by rw [hclose.1]; exact halts_cons.mpr rfl)
  exact array_of_nil (by omega) hf hclose

theorem valueRead_emptyObject (h : IsBlank s) :
    ValueRead (n + 1) ('{' :: (s ++ ['}'])) (.object []) := by
  intro c d opened b ho hb hp _
  obtain ⟨f, hf, hd⟩ := (passes_of_writes (n := n + 1) (.emptyObject h) hb hp).split_cons
  obtain ⟨g, hg, hclose⟩ := hd.split
  obtain rfl : skipBlank f = g := skipBlank_eq hg h (by rw [hclose.1]; exact halts_cons.mpr rfl)
  exact object_of_nil (by omega) hf hclose

theorem valueRead_array {vs : List Json} (hw : WritesItems n s vs) (h : ItemsRead n s vs) :
    ValueRead (n + 1) ('[' :: (s ++ [']'])) (.array vs) := by
  intro c d opened b ho hb hp _
  obtain ⟨f, hf, hd⟩ := (passes_of_writes (n := n + 1) (.array hw) hb hp).split_cons
  obtain ⟨y, hy, hne⟩ := peek?_of_writesItems hw hd
  exact array_of_items (by omega) hf hy hne (h (by omega) hd)

theorem valueRead_object {es : List (String × Json)} (hw : WritesEntries n s es)
    (h : EntriesRead n s es) : ValueRead (n + 1) ('{' :: (s ++ ['}'])) (.object (collect es)) := by
  intro c d opened b ho hb hp _
  obtain ⟨f, hf, hd⟩ := (passes_of_writes (n := n + 1) (.object hw) hb hp).split_cons
  exact object_of_entries (by omega) hf (peek?_of_writesEntries hw hd) (by decide) (h (by omega) hd)

theorem elementRead_mk {b' : List Char} {v : Json} (hb : IsBlank b) (hw : Writes n s v)
    (h : ValueRead n s v) (hb' : IsBlank b') : ElementRead n (b ++ (s ++ b')) v := by
  intro c c' d opened x ho hp hc hx hxb hxt
  rw [← List.append_assoc] at hp
  obtain ⟨f, hf, hd⟩ := hp.split
  have hs := passes_of_writes hw hb hf
  obtain ⟨b₀, hp₀, hb₀⟩ := passes_skipBlank c'
  rw [hc] at hp₀
  obtain ⟨t, ht⟩ := List.head?_eq_some_iff.mp hx
  have hends : Halts isNumberTail f.rest := by
    rw [hd.1, ht]
    exact halts_isNumberTail hb' hxt
  obtain ⟨h₁, e₁⟩ := h ho hb₀ (hp₀.trans hs) hends
  exact ⟨_, e₁, rfl, skipBlank_eq hd hb' (by rw [ht]; exact halts_cons.mpr hxb)⟩

theorem itemsRead_one {v : Json} (h : ElementRead n s v) : ItemsRead n s [v] := by
  intro c d opened ho hp
  obtain ⟨e, he, hclose⟩ := hp.split
  obtain ⟨r, hr, rfl, rfl⟩ := h ho he (skipBlank_skipBlank c) (by rw [hclose.1]; rfl) (by decide)
    (by decide)
  refine ⟨Cursor.le_trans r.ahead (Cursor.le_trans (le_skipBlank _) hclose.le), ?_⟩
  rw [items_eq hr hclose, if_pos rfl]

theorem itemsRead_more {v : Json} {vs : List Json} (h : ElementRead n s v)
    (hw : WritesItems n t vs) (ht : ItemsRead n t vs) : ItemsRead n (s ++ ',' :: t) (v :: vs) := by
  intro c d opened ho hp
  rw [List.append_assoc] at hp
  obtain ⟨e, he, hp'⟩ := hp.split
  obtain ⟨f, hf, hd⟩ := hp'.split_cons
  obtain ⟨r, hr, rfl, rfl⟩ := h ho he (skipBlank_skipBlank c) (by rw [hf.1]; rfl) (by decide)
    (by decide)
  obtain ⟨h₁, e₁⟩ := ht ho hd
  obtain ⟨y, hy, hne⟩ := peek?_of_writesItems hw hd
  refine ⟨Cursor.le_trans r.ahead (Cursor.le_trans (le_skipBlank _)
    (Cursor.le_trans hf.le (Cursor.le_trans (le_skipBlank f) h₁))), ?_⟩
  rw [items_eq hr hf, if_neg (by decide), if_pos rfl, hy, if_neg (mt Option.some.inj hne), e₁]
  rfl

theorem entryRead_mk {cs b' : List Char} {v : Json} (hb : IsBlank b) (hs : WritesChars s cs)
    (hb' : IsBlank b') (h : ElementRead n t v) :
    EntryRead n (b ++ (('"' :: (s ++ ['"'])) ++ (b' ++ ':' :: t))) (.ofList cs, v) := by
  intro c d opened x ho hp hx hxb hxt
  obtain ⟨e, ⟨h₁, hk⟩, he⟩ := exists_key hb hs hb' hp
  obtain ⟨r, hr, rfl, hd⟩ := h ho he (Eq.refl (skipBlank e)) hx hxb hxt
  exact ⟨⟨_, e, h₁⟩, r, hk, hr, rfl, hd⟩

theorem entriesRead_one {e : String × Json} (h : EntryRead n s e) : EntriesRead n s [e] := by
  intro c d opened ho hp
  obtain ⟨f, hf, hclose⟩ := hp.split
  obtain ⟨k, r, hk, hr, rfl, rfl⟩ := h ho hf (by rw [hclose.1]; rfl) (by decide) (by decide)
  refine ⟨Cursor.le_trans k.ahead (Cursor.le_trans r.ahead
    (Cursor.le_trans (le_skipBlank _) hclose.le)), ?_⟩
  rw [entries_eq hk hr hclose, if_pos rfl]

theorem entriesRead_more {e : String × Json} {es : List (String × Json)} (h : EntryRead n s e)
    (hw : WritesEntries n t es) (ht : EntriesRead n t es) :
    EntriesRead n (s ++ ',' :: t) (e :: es) := by
  intro c d opened ho hp
  rw [List.append_assoc] at hp
  obtain ⟨f, hf, hp'⟩ := hp.split
  obtain ⟨g, hg, hd⟩ := hp'.split_cons
  obtain ⟨k, r, hk, hr, rfl, rfl⟩ := h ho hf (by rw [hg.1]; rfl) (by decide) (by decide)
  obtain ⟨h₁, e₁⟩ := ht ho hd
  refine ⟨Cursor.le_trans k.ahead (Cursor.le_trans r.ahead (Cursor.le_trans (le_skipBlank _)
    (Cursor.le_trans hg.le (Cursor.le_trans (le_skipBlank g) h₁)))), ?_⟩
  rw [entries_eq hk hr hg, if_neg (by decide), if_pos rfl, peek?_of_writesEntries hw hd,
    if_neg (by decide), e₁]
  rfl

mutual

theorem valueRead_of_writes {n : Nat} {s : List Char} {v : Json} (h : Writes n s v) :
    ValueRead n s v := by
  match h with
  | .null => exact valueRead_null
  | .true => exact valueRead_true
  | .false => exact valueRead_false
  | .number hy hz => exact valueRead_number hy hz
  | .string hs => exact valueRead_string hs
  | .emptyArray hb => exact valueRead_emptyArray hb
  | .array hs => exact valueRead_array hs (itemsRead_of_writesItems hs)
  | .emptyObject hb => exact valueRead_emptyObject hb
  | .object hs => exact valueRead_object hs (entriesRead_of_writesEntries hs)

theorem elementRead_of_writesElement {n : Nat} {s : List Char} {v : Json}
    (h : WritesElement n s v) : ElementRead n s v := by
  match h with
  | .mk hb hv hb' => exact elementRead_mk hb hv (valueRead_of_writes hv) hb'

theorem itemsRead_of_writesItems {n : Nat} {s : List Char} {vs : List Json}
    (h : WritesItems n s vs) : ItemsRead n s vs := by
  match h with
  | .one hv => exact itemsRead_one (elementRead_of_writesElement hv)
  | .more hv hvs =>
      exact itemsRead_more (elementRead_of_writesElement hv) hvs (itemsRead_of_writesItems hvs)

theorem entryRead_of_writesEntry {n : Nat} {s : List Char} {e : String × Json}
    (h : WritesEntry n s e) : EntryRead n s e := by
  match h with
  | .mk hb hk hb' hv => exact entryRead_mk hb hk hb' (elementRead_of_writesElement hv)

theorem entriesRead_of_writesEntries {n : Nat} {s : List Char} {es : List (String × Json)}
    (h : WritesEntries n s es) : EntriesRead n s es := by
  match h with
  | .one he => exact entriesRead_one (entryRead_of_writesEntry he)
  | .more he hes =>
      exact entriesRead_more (entryRead_of_writesEntry he) hes (entriesRead_of_writesEntries hes)

end

end SigilCall.Json.Read

namespace SigilCall.Json

open Text Json.Read

variable {s t : List Char} {v : Json}

/-- The texts that the decoder accepts are those of a value between blanks. -/
theorem decode_eq_ok_iff :
    decode t = .ok v ↔
      ∃ b s b', t = b ++ (s ++ b') ∧ IsBlank b ∧ Writes maxLevels s v ∧ IsBlank b' := by
  rw [decode, Except.mapError_eq_ok_iff]
  constructor
  · intro h
    obtain ⟨r, hr, h⟩ := Except.bind_eq_ok_iff.mp h
    obtain ⟨b, s, hs, hb, hw⟩ := writes_of_value (Nat.zero_add maxLevels) hr
    obtain ⟨b', hb', hblank⟩ := passes_skipBlank r.stop
    simp only at h
    split at h
    · next hend =>
        cases h
        refine ⟨b, s, b', ?_, hb, hw, hblank⟩
        have hrest : (skipBlank r.stop).rest = [] := List.isEmpty_iff.mp hend
        rw [← List.append_assoc, ← List.append_nil b', ← hrest, ← hb'.1, ← hs.1]
        rfl
    · cases h
  · rintro ⟨b, s, b', rfl, hb, hw, hb'⟩
    rw [← List.append_assoc]
    obtain ⟨_, hv⟩ := valueRead_of_writes hw (Nat.le_of_eq (Nat.zero_add _)) hb
      (Cursor.passes_start (b ++ s) b')
      (by intro x hx; exact isNumberTail_of_isBlank (hb' x (List.mem_of_mem_head? hx)))
    have hend : (⟨byteLength (b ++ s), b'⟩ : Cursor).Passes b' ⟨byteLength (b ++ s) + byteLength b', []⟩ :=
      ⟨(List.append_nil b').symm, rfl⟩
    rw [hv]
    simp only [Except.ok_bind, skipBlank_eq hend hb' halts_nil]
    rfl

theorem decode_of_writes (h : Writes maxLevels s v) : decode s = .ok v :=
  decode_eq_ok_iff.mpr ⟨[], s, [], by simp, isBlank_nil, h, isBlank_nil⟩

end SigilCall.Json
