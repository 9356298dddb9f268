import SigilCall.Proofs.Call.Soundness

namespace SigilCall

open Text Literal

/-- A reading goes well if the calls in it are within the limit, and fails because of the limit if
they are not. -/
structure Settles {α : Type} (cfg : Config) (levels : Nat)
    (rule : List Event → Except CallError α → Prop) (p : α → Prop) : Prop where
  fits : levels ≤ cfg.maxDepth → ∃ es x, rule es (.ok x) ∧ p x
  tooDeep : cfg.maxDepth < levels → ∃ es n, rule es (.error (.tooDeep cfg.maxDepth n))

def CallComplete (mode : Quoting) (t : List Char) (v : Call) : Prop :=
  ∀ ⦃cfg : Config⦄ ⦃depth : Nat⦄ ⦃c g : Cursor⦄ ⦃u : List Char⦄, cfg.quoting = mode → IsSpaces u → c.Passes (u ++ t) g →
    Settles cfg (Argument.depthList v.args + depth) (ReadsCall cfg depth c) (· = (v, g))

def ListComplete (mode : Quoting) (t : List Char) (args : List Argument) : Prop :=
  ∀ ⦃cfg : Config⦄ ⦃depth : Nat⦄ ⦃c d : Cursor⦄, cfg.quoting = mode → depth ≤ cfg.maxDepth →
    c.Passes t d → d.peek? = some ')' →
    Settles cfg (Argument.depthList args + depth) (ReadsList cfg depth c) (· = (args, d))

def ArgumentComplete (mode : Quoting) (t : List Char) (a : Argument) : Prop :=
  ∀ ⦃cfg : Config⦄ ⦃depth : Nat⦄ ⦃c d : Cursor⦄ ⦃x : Char⦄, cfg.quoting = mode →
    depth ≤ cfg.maxDepth → c.Passes t d → d.peek? = some x → Cursor.isRawChar x = false →
    Settles cfg (a.depth + depth) (ReadsArgument cfg depth c.skipSpace)
      fun r => r.1 = a ∧ r.2.skipSpace = d

variable {cfg : Config} {mode : Quoting} {depth : Nat} {c d e g : Cursor} {s t u w : List Char}
  {name : List Char} {x : Char} {a : Argument} {args : List Argument}

theorem isSpace_of_isRawChar (h : Cursor.isRawChar x = false) : isSpace x = false := by
  apply Bool.eq_false_iff.mpr
  intro hs
  rw [isRawChar_of_isSpace hs] at h
  cases h

theorem halts_of_peek? {p : Char → Bool} (h : c.peek? = some x) (hx : p x = false) :
    Halts p c.rest := by
  intro y hy
  rw [Cursor.peek?, hy] at h
  cases h
  exact hx

theorem skipSpace_of_peek? (h : c.peek? = some x) (hx : isSpace x = false) : c.skipSpace = c :=
  Cursor.skipWhile_of_halts (halts_of_peek? h hx)

theorem skipSpace_eq (hp : c.Passes u d) (hu : IsSpaces u) (hd : Halts isSpace d.rest) :
    c.skipSpace = d := Cursor.skipWhile_eq hp hu hd

/-- A name goes no further than the blanks after it. -/
theorem halts_isNameChar (hw : IsSpaces w) : Halts isNameChar (w ++ '(' :: t) := by
  refine halts_append (fun y hy => Bool.eq_false_iff.mpr fun hc => ?_) rfl
  have := isSpace_eq_false_of_isNameChar hc
  rw [hw y hy] at this
  cases this

theorem exists_opens (hu : IsSpaces u) (hn : IsName name) (hw : IsSpaces w)
    (hp : c.Passes (u ++ '$' :: (name ++ (w ++ '(' :: t))) d) :
    ∃ b e, Opens c b e ∧ e.Passes t d ∧ b.name = String.ofList name := by
  obtain ⟨c', h₁, hp₁⟩ := hp.split
  obtain ⟨b, h₂, hp₂⟩ := hp₁.split_cons
  obtain ⟨b', h₃, hp₃⟩ := hp₂.split
  obtain ⟨b'', h₄, hp₄⟩ := hp₃.split
  obtain ⟨e, h₅, hp₅⟩ := hp₄.split_cons
  have hname : Halts isNameChar b'.rest := by
    rw [h₄.1, h₅.1]
    exact halts_isNameChar hw
  obtain rfl := skipSpace_eq h₁ hu (by rw [h₂.1]; exact halts_cons.mpr rfl)
  have hb : b.skipWhile isNameChar = b' := Cursor.skipWhile_eq h₃ hn hname
  have hb' : b.skipName = b'' := by
    rw [Cursor.skipName, hb]
    exact skipSpace_eq h₄ hw (by rw [h₅.1]; exact halts_cons.mpr rfl)
  exact ⟨b, e, ⟨h₂, hb' ▸ h₅⟩, hp₅, congrArg String.ofList (Cursor.takeWhile_eq h₃ hn hname)⟩

theorem callComplete_call (hn : IsName name) (hw : IsSpaces w) (hl : ListComplete mode t args) :
    CallComplete mode ('$' :: (name ++ (w ++ '(' :: (t ++ [')'])))) ⟨String.ofList name, args⟩ := by
  intro cfg depth c g u hm hu hp
  obtain ⟨b, e, ho, hp, hname⟩ := exists_opens hu hn hw hp
  obtain ⟨f, hf, hclose⟩ := hp.split
  have hpeek : f.peek? = some ')' := by
    rw [Cursor.peek?, hclose.1]
    rfl
  have hskip : f.skipSpace = f := skipSpace_of_peek? hpeek rfl
  refine ⟨fun hfits => ?_, fun hdeep => ?_⟩
  · have hd : depth ≤ cfg.maxDepth := Nat.le_trans (Nat.le_add_left _ _) hfits
    obtain ⟨es, _, h, rfl⟩ := (hl hm hd hf hpeek).fits hfits
    exact ⟨_, _, .call hd ho h (hskip.symm ▸ hclose), by rw [hname]⟩
  · by_cases hd : depth ≤ cfg.maxDepth
    · obtain ⟨es, n, h⟩ := (hl hm hd hf hpeek).tooDeep hdeep
      exact ⟨_, n, .badArguments hd ho h⟩
    · exact ⟨_, _, .tooDeep (Nat.lt_of_not_le hd)⟩

theorem listComplete_one (h : ArgumentComplete mode t a) : ListComplete mode t [a] := by
  intro cfg depth c d hm hd hp hpeek
  have ha := h hm hd hp hpeek rfl
  have hlevels : Argument.depthList [a] = a.depth := Nat.max_zero _
  rw [hlevels]
  refine ⟨fun hfits => ?_, fun hdeep => ?_⟩
  · obtain ⟨es, ⟨_, e⟩, hr, rfl, rfl⟩ := ha.fits hfits
    refine ⟨es, _, .last hr ?_, rfl⟩
    rw [hpeek]
    decide
  · obtain ⟨es, n, hr⟩ := ha.tooDeep hdeep
    exact ⟨es, n, .badFirst hr⟩

theorem listComplete_more (h : ArgumentComplete mode s a) (hl : ListComplete mode t args) :
    ListComplete mode (s ++ ',' :: t) (a :: args) := by
  intro cfg depth c d hm hd hp hpeek
  obtain ⟨e, he, hp⟩ := hp.split
  obtain ⟨f, hf, hp⟩ := hp.split_cons
  have hcomma : e.peek? = some ',' := by
    rw [Cursor.peek?, hf.1]
    rfl
  have ha := h hm hd he hcomma rfl
  have hargs := hl hm hd hp hpeek
  rw [Argument.depthList_cons]
  refine ⟨fun hfits => ?_, fun hdeep => ?_⟩
  · obtain ⟨es, ⟨_, e'⟩, hr, rfl, rfl⟩ := ha.fits (by omega)
    obtain ⟨es', _, hrs, rfl⟩ := hargs.fits (by omega)
    exact ⟨_, _, .more hr hf hrs, rfl⟩
  · by_cases hfirst : a.depth + depth ≤ cfg.maxDepth
    · obtain ⟨es, ⟨_, e'⟩, hr, rfl, rfl⟩ := ha.fits hfirst
      obtain ⟨es', n, hrs⟩ := hargs.tooDeep (by omega)
      exact ⟨_, n, .badRest hr hf hrs⟩
    · obtain ⟨es, n, hr⟩ := ha.tooDeep (Nat.lt_of_not_le hfirst)
      exact ⟨es, n, .badFirst hr⟩

theorem argumentComplete_call {v : Call} (hu : IsSpaces u) (h : CallComplete mode t v)
    (hstart : t.head? = some '$') (hw : IsSpaces w) :
    ArgumentComplete mode (u ++ (t ++ w)) v.toArgument := by
  intro cfg depth c d x hm hd hp hpeek hx
  obtain ⟨c', hc, hp₁⟩ := hp.split
  obtain ⟨e, he, hp₂⟩ := hp₁.split
  have hpeek' := he.peek?_eq_some hstart
  obtain rfl := skipSpace_eq hc hu (halts_of_peek? hpeek' rfl)
  have hend : e.skipSpace = d :=
    skipSpace_eq hp₂ hw (halts_of_peek? hpeek (isSpace_of_isRawChar hx))
  have hcall : Settles cfg (Argument.depthList v.args + (depth + 1))
      (ReadsCall cfg (depth + 1) c.skipSpace) (· = (v, e)) :=
    h hm isSpaces_nil he
  rw [Call.depth_toArgument, Call.depth_eq]
  refine ⟨fun hfits => ?_, fun hdeep => ?_⟩
  · obtain ⟨es, _, hr, rfl⟩ := hcall.fits (by omega)
    exact ⟨es, _, .call hpeek' hr, rfl, hend⟩
  · obtain ⟨es, n, hr⟩ := hcall.tooDeep (by omega)
    exact ⟨es, n, .badCall hpeek' hr⟩

theorem argumentComplete_literal {k : Kind} {v : Json} (hu : IsSpaces u)
    (hl : IsLiteral k mode t) (hv : Json.decode t = .ok v) (ha : Argument.ofJson? v = some a)
    (hw : IsSpaces w) : ArgumentComplete mode (u ++ (t ++ w)) a := by
  intro cfg depth c d x hm hd hp hpeek hx
  subst hm
  obtain ⟨c', hc, hp₁⟩ := hp.split
  obtain ⟨e, he, hp₂⟩ := hp₁.split
  have hpeek' := he.peek?_eq_some hl.1
  have hspace : isSpace k.opening = false := by cases k <;> rfl
  obtain rfl := skipSpace_eq hc hu (halts_of_peek? hpeek' hspace)
  have hend : e.skipSpace = d :=
    skipSpace_eq hp₂ hw (halts_of_peek? hpeek (isSpace_of_isRawChar hx))
  have hscan : Span.scan k cfg.quoting c.skipSpace.rest = ⟨t, e.rest, true⟩ :=
    (scan_eq_iff hpeek').mpr ⟨he.1, hl⟩
  have hstop : c.skipSpace.skipSpan k cfg.quoting = e := by
    rw [Cursor.skipSpan, hscan, ← he.2]
  rw [depth_of_ofJson? ha]
  refine ⟨fun _ => ⟨_, _, .literal hpeek' (by rw [hscan]; exact hv) ha, rfl, ?_⟩, fun hdeep => ?_⟩
  · rw [hstop, hend]
  · omega

theorem not_isSigil_of_isRawChar (h : Cursor.isRawChar x = false) : ¬ IsSigil x := by
  rintro (rfl | hk)
  · cases h
  · obtain ⟨k, hk⟩ := Option.isSome_iff_exists.mp hk
    obtain rfl := Kind.ofOpening?_eq_some_iff.mp hk
    cases k <;> cases h

theorem isPlain_of_not_isSigil (h : ∀ y, c.peek? = some y → ¬ IsSigil y) : c.IsPlain := by
  intro y hy
  have hne := h y hy
  refine ⟨fun h => hne (.inl h), ?_⟩
  cases hk : Kind.ofOpening? y with
  | none => rfl
  | some k => exact absurd (.inr (by rw [hk]; rfl)) hne

/-- Without the blanks before it a raw text is still there to be read, up to the separator. -/
theorem passes_skipSpace_of_isRaw (h : IsRaw s) (hp : c.Passes s d) (hpeek : d.peek? = some x)
    (hx : Cursor.isRawChar x = false) :
    c.skipSpace.Passes (s.dropWhile isSpace) d ∧
      ∀ y, c.skipSpace.peek? = some y → ¬ IsSigil y := by
  have hcut : c.Passes (s.takeWhile isSpace ++ s.dropWhile isSpace) d := by
    rwa [List.takeWhile_append_dropWhile]
  obtain ⟨c', hc, hd⟩ := hcut.split
  have hhead : ∀ y, c'.peek? = some y → isSpace y = false ∧ ¬ IsSigil y := by
    intro y hy
    rw [Cursor.peek?, hd.1] at hy
    cases hr : s.dropWhile isSpace with
    | nil =>
        rw [hr] at hy
        rw [Cursor.peek?, ← List.nil_append d.rest, hy] at hpeek
        cases hpeek
        exact ⟨isSpace_of_isRawChar hx, not_isSigil_of_isRawChar hx⟩
    | cons z r =>
        rw [hr] at hy
        cases hy
        exact ⟨halts_dropWhile isSpace s y (by rw [hr]; rfl), h.2 y (by rw [hr]; rfl)⟩
  obtain rfl := skipSpace_eq hc (List.all_eq_true.mp List.all_takeWhile) fun y hy => (hhead y hy).1
  exact ⟨hd, fun y hy => (hhead y hy).2⟩

theorem argumentComplete_raw (h : IsRaw s) :
    ArgumentComplete mode s (.raw (String.ofList (trim s))) := by
  intro cfg depth c d x hm hd hp hpeek hx
  obtain ⟨hraw, hplain⟩ := passes_skipSpace_of_isRaw h hp hpeek hx
  have hchars : ∀ y ∈ s.dropWhile isSpace, Cursor.isRawChar y = true := fun y hy =>
    h.1 y ((List.dropWhile_suffix isSpace).subset hy)
  have hhalts : Halts Cursor.isRawChar d.rest := halts_of_peek? hpeek hx
  have htoken : c.skipSpace.rawToken = trim s := by
    have hcut : s.takeWhile isSpace ++ s.dropWhile isSpace = s := List.takeWhile_append_dropWhile
    rw [Cursor.rawToken, Cursor.takeWhile_eq hraw hchars hhalts,
      ← trim_append_left (u := s.takeWhile isSpace) (List.all_eq_true.mp List.all_takeWhile), hcut]
  have hstop : c.skipSpace.skipRaw = d := Cursor.skipWhile_eq hraw hchars hhalts
  have hskip : d.skipSpace = d := skipSpace_of_peek? hpeek (isSpace_of_isRawChar hx)
  rw [Argument.depth_raw, Nat.zero_add]
  refine ⟨fun _ => ⟨_, _, .raw (isPlain_of_not_isSigil hplain), ?_, ?_⟩, fun hdeep => ?_⟩
  · rw [htoken]
  · rw [hstop, hskip]
  · omega

theorem head?_of_derives {v : Call} (h : Derives mode t v) : t.head? = some '$' := by
  cases h
  rfl

mutual

theorem callComplete_of_derives {mode : Quoting} {t : List Char} {v : Call} (h : Derives mode t v) :
    CallComplete mode t v := by
  match h with
  | .call hn hw hl => exact callComplete_call hn hw (listComplete_of_derives hl)

theorem listComplete_of_derives {mode : Quoting} {t : List Char} {args : List Argument}
    (h : DerivesList mode t args) : ListComplete mode t args := by
  match h with
  | .one ha => exact listComplete_one (argumentComplete_of_derives ha)
  | .more ha hl =>
      exact listComplete_more (argumentComplete_of_derives ha) (listComplete_of_derives hl)

theorem argumentComplete_of_derives {mode : Quoting} {t : List Char} {a : Argument}
    (h : DerivesArgument mode t a) : ArgumentComplete mode t a := by
  match h with
  | .call hu hc hw =>
      exact argumentComplete_call hu (callComplete_of_derives hc) (head?_of_derives hc) hw
  | .literal hu hl hv ha hw => exact argumentComplete_literal hu hl hv ha hw
  | .raw hs => exact argumentComplete_raw hs

end

end SigilCall
