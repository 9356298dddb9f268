import SigilCall.Cursor.Raw

namespace SigilCall

namespace Text

def Halts (p : Char → Bool) (s : List Char) : Prop := ∀ x, s.head? = some x → p x = false

variable {p : Char → Bool} {s t : List Char} {x : Char}

@[simp] theorem halts_nil : Halts p [] := by
  intro x hx
  cases hx

@[simp] theorem halts_cons : Halts p (x :: s) ↔ p x = false := by
  simp [Halts]

theorem halts_append (hs : ∀ y ∈ s, p y = false) (hx : p x = false) : Halts p (s ++ x :: t) := by
  cases s with
  | nil => exact halts_cons.mpr hx
  | cons y s => exact halts_cons.mpr (hs y (by simp))

theorem Halts.mono {q : Char → Bool} (h : Halts q s) (hp : ∀ c, p c = true → q c = true) :
    Halts p s := by
  intro x hx
  apply Bool.eq_false_iff.mpr
  intro hpx
  have hq := hp x hpx
  rw [h x hx] at hq
  cases hq

theorem halts_dropWhile (p : Char → Bool) (s : List Char) : Halts p (s.dropWhile p) := by
  intro x hx
  simpa [hx] using List.head?_dropWhile_not p s

theorem takeWhile_append_eq (hs : ∀ x ∈ s, p x = true) (ht : Halts p t) :
    (s ++ t).takeWhile p = s := by
  rw [List.takeWhile_append_of_pos hs]
  cases t with
  | nil => simp
  | cons x t => simp [halts_cons.mp ht]

theorem dropWhile_append_eq (hs : ∀ x ∈ s, p x = true) (ht : Halts p t) :
    (s ++ t).dropWhile p = t := by
  rw [List.dropWhile_append_of_pos hs]
  cases t with
  | nil => rfl
  | cons x t => simp [halts_cons.mp ht]

/-- A text is cut in one way after a run of characters of a class. -/
theorem append_inj_of_halts {s' t' : List Char} (hs : ∀ x ∈ s, p x = true)
    (hs' : ∀ x ∈ s', p x = true) (ht : Halts p t) (ht' : Halts p t') (h : s ++ t = s' ++ t') :
    s = s' ∧ t = t' := by
  have hrun : s = s' := by rw [← takeWhile_append_eq hs ht, h, takeWhile_append_eq hs' ht']
  exact ⟨hrun, List.append_cancel_left (hrun ▸ h)⟩

theorem takeBytes?_eq_some {n : Nat} (h : takeBytes? s n = some t) :
    ∃ u, s = t ++ u ∧ n = byteLength t := by
  fun_induction takeBytes? s n generalizing t with
  | case1 s =>
      cases h
      exact ⟨s, rfl, rfl⟩
  | case2 => cases h
  | case3 x s n hx ih =>
      obtain ⟨v, hv, rfl⟩ := Option.map_eq_some_iff.mp h
      obtain ⟨u, rfl, hn⟩ := ih hv
      refine ⟨u, rfl, ?_⟩
      rw [byteLength_cons]
      omega
  | case4 => cases h

/-- The bytes taken from a text are those of the text that they write. -/
theorem takeBytes?_eq_some_iff {n : Nat} :
    takeBytes? s n = some t ↔ ∃ u, s = t ++ u ∧ n = byteLength t := by
  refine ⟨takeBytes?_eq_some, ?_⟩
  rintro ⟨u, rfl, rfl⟩
  exact takeBytes?_byteLength t u

theorem byteLength_pos (h : s ≠ []) : 0 < byteLength s :=
  Nat.lt_of_lt_of_le (List.length_pos_iff.mpr h) (length_le_byteLength s)

theorem eq_nil_of_byteLength_eq_zero (h : byteLength s = 0) : s = [] := by
  apply Classical.byContradiction
  intro hne
  exact Nat.ne_of_gt (byteLength_pos hne) h

/-- Of two beginnings of a text the shorter one is a beginning of the other. -/
theorem exists_eq_append_of_byteLength_le {u v : List Char} (h : s ++ u = t ++ v)
    (hn : byteLength s ≤ byteLength t) : ∃ w, t = s ++ w ∧ u = w ++ v := by
  rcases List.append_eq_append_iff.mp h with hw | ⟨w, rfl, rfl⟩
  · exact hw
  · rw [byteLength_append] at hn
    obtain rfl : w = [] := eq_nil_of_byteLength_eq_zero (by omega)
    exact ⟨[], by simp, rfl⟩

theorem dropBytes?_eq_some {n : Nat} (h : dropBytes? s n = some t) :
    ∃ u, s = u ++ t ∧ n = byteLength u := by
  fun_induction dropBytes? s n with
  | case1 s =>
      cases h
      exact ⟨[], rfl, rfl⟩
  | case2 => cases h
  | case3 x s n hx ih =>
      obtain ⟨u, rfl, hn⟩ := ih h
      refine ⟨x :: u, rfl, ?_⟩
      rw [byteLength_cons]
      omega
  | case4 => cases h

theorem dropBytes?_eq_some_iff {n : Nat} :
    dropBytes? s n = some t ↔ ∃ u, s = u ++ t ∧ n = byteLength u := by
  refine ⟨dropBytes?_eq_some, ?_⟩
  rintro ⟨u, rfl, rfl⟩
  exact dropBytes?_byteLength u t

@[simp] theorem takeBytes?_length (s : List Char) : takeBytes? s (byteLength s) = some s := by
  simpa using takeBytes?_byteLength s []

end Text

namespace Cursor

open Text

def Passes (c : Cursor) (t : List Char) (d : Cursor) : Prop :=
  c.rest = t ++ d.rest ∧ d.pos = c.pos + byteLength t

variable {c d e : Cursor} {s t : List Char} {x : Char} {p : Char → Bool}

@[simp] theorem passes_nil (c : Cursor) : c.Passes [] c := ⟨rfl, rfl⟩

namespace Passes

theorem le (h : c.Passes t d) : c ≤ d := ⟨t, h⟩

theorem trans (h : c.Passes s d) (h' : d.Passes t e) : c.Passes (s ++ t) e := by
  refine ⟨?_, ?_⟩
  · simp [h.1, h'.1]
  · simp [h'.2, h.2, Nat.add_assoc]

/-- Between two places there is one for each way to cut the text. -/
theorem split (h : c.Passes (s ++ t) e) : ∃ d, c.Passes s d ∧ d.Passes t e := by
  refine ⟨⟨c.pos + byteLength s, t ++ e.rest⟩, ⟨?_, rfl⟩, rfl, ?_⟩
  · simp [h.1]
  · simp [h.2, Nat.add_assoc]

theorem split_cons (h : c.Passes (x :: t) e) : ∃ d, c.Passes [x] d ∧ d.Passes t e :=
  split h

theorem unique (h : c.Passes t d) (h' : c.Passes t e) : d = e := by
  obtain ⟨n, r⟩ := d
  obtain ⟨m, r'⟩ := e
  have hr : r = r' := List.append_cancel_left (h.1.symm.trans h'.1)
  have hn : n = m := h.2.trans h'.2.symm
  rw [hr, hn]

theorem eq_of_nil (h : c.Passes [] d) : d = c := h.unique (passes_nil c)

theorem length_le (h : c.Passes t d) : d.rest.length ≤ c.rest.length := Cursor.length_le h.le

theorem pos_lt (h : c.Passes t d) (ht : t ≠ []) : c.pos < d.pos := by
  rw [h.2]
  exact Nat.lt_add_of_pos_right (byteLength_pos ht)

theorem peek?_eq_some (h : c.Passes t d) (ht : t.head? = some x) : c.peek? = some x := by
  obtain ⟨u, rfl⟩ := List.head?_eq_some_iff.mp ht
  rw [peek?, h.1]
  rfl

end Passes

theorem passes_start (s t : List Char) : (start (s ++ t)).Passes s ⟨byteLength s, t⟩ :=
  ⟨rfl, (Nat.zero_add _).symm⟩

theorem eq_of_passes_start (h : (start s).Passes t d) : s = t ++ d.rest ∧ d.pos = byteLength t :=
  ⟨h.1, h.2.trans (Nat.zero_add _)⟩

theorem takeBytes?_of_passes (h : (start s).Passes t d) : takeBytes? s d.pos = some t := by
  obtain ⟨hs, hpos⟩ := eq_of_passes_start h
  simp [hs, hpos]

theorem exists_eq_append (h : start s ≤ d) : ∃ t, s = t ++ d.rest ∧ d.pos = byteLength t := by
  obtain ⟨t, ht⟩ := h
  exact ⟨t, eq_of_passes_start ht⟩

theorem dropBytes?_of_le (h : start s ≤ d) : dropBytes? s d.pos = some d.rest :=
  dropBytes?_eq_some_iff.mpr (exists_eq_append h)

theorem pos_add_rest (h : start s ≤ d) : d.pos + byteLength d.rest = byteLength s := by
  obtain ⟨t, rfl, hpos⟩ := exists_eq_append h
  simp [hpos]

theorem pos_le_byteLength (h : start s ≤ d) : d.pos ≤ byteLength s :=
  Nat.le_of_add_right_le (Nat.le_of_eq (pos_add_rest h))

theorem slice?_of_passes (h : start s ≤ c) (h' : c.Passes t d) : slice? s c.pos d.pos = some t := by
  obtain ⟨u, hs, hpos⟩ := exists_eq_append h
  simp [hs, h'.1, h'.2, hpos]

/-- Offsets order the places of a text. -/
theorem exists_passes_of_pos_le (hc : start s ≤ c) (hd : start s ≤ d) (h : c.pos ≤ d.pos) :
    ∃ t, c.Passes t d := by
  obtain ⟨u, hu, hpos⟩ := exists_eq_append hc
  obtain ⟨v, hv, hpos'⟩ := exists_eq_append hd
  obtain ⟨w, rfl, hw⟩ := exists_eq_append_of_byteLength_le (hu.symm.trans hv) (by omega)
  refine ⟨w, hw, ?_⟩
  simp [hpos', hpos]

theorem next?_eq_some_iff : c.next? = some (x, d) ↔ c.Passes [x] d := by
  refine ⟨fun h => ⟨(next?_eq_some h).1, (next?_eq_some h).2⟩, fun h => ?_⟩
  obtain ⟨n, r⟩ := c
  obtain ⟨m, r'⟩ := d
  have hr : r = x :: r' := h.1
  have hm : m = n + x.utf8Size := h.2
  rw [hr, hm]
  rfl

theorem next?_eq_none_iff : c.next? = none ↔ c.rest = [] := by
  obtain ⟨n, _ | ⟨x, r⟩⟩ := c <;> simp [next?]

theorem accept?_eq_some_iff : c.accept? x = some d ↔ c.Passes [x] d := by
  refine ⟨fun h => next?_eq_some_iff.mp (next?_of_accept? h), fun h => ?_⟩
  simp only [accept?, next?_eq_some_iff.mpr h, if_true]

theorem accept?_eq_none_iff : c.accept? x = none ↔ c.peek? ≠ some x := by
  obtain ⟨n, _ | ⟨y, r⟩⟩ := c <;> simp [accept?, next?, peek?]

theorem exists_passes_of_peek? (h : c.peek? = some x) : ∃ d, c.Passes [x] d := by
  obtain ⟨r, hr⟩ := List.head?_eq_some_iff.mp h
  exact ⟨⟨c.pos + x.utf8Size, r⟩, hr, rfl⟩

theorem passes_skipWhile (p : Char → Bool) (c : Cursor) :
    c.Passes (c.rest.takeWhile p) (c.skipWhile p) :=
  ⟨List.takeWhile_append_dropWhile.symm, rfl⟩

theorem halts_skipWhile (p : Char → Bool) (c : Cursor) : Halts p (c.skipWhile p).rest :=
  halts_dropWhile p c.rest

/-- A run ends where the first character outside its class stands. -/
theorem skipWhile_eq (h : c.Passes t d) (ht : ∀ x ∈ t, p x = true) (hd : Halts p d.rest) :
    c.skipWhile p = d := by
  have hr : c.rest.takeWhile p = t := by rw [h.1, takeWhile_append_eq ht hd]
  exact (hr ▸ passes_skipWhile p c).unique h

theorem skipWhile_of_halts (h : Halts p c.rest) : c.skipWhile p = c :=
  skipWhile_eq (passes_nil c) (by simp) h

theorem takeWhile_eq (h : c.Passes t d) (ht : ∀ x ∈ t, p x = true) (hd : Halts p d.rest) :
    c.rest.takeWhile p = t := by
  rw [h.1, takeWhile_append_eq ht hd]

end Cursor

end SigilCall
