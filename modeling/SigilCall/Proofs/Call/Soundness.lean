import SigilCall.Call.Grammar
import SigilCall.Proofs.Literal.Balance
import SigilCall.Proofs.Rules

namespace SigilCall

open Text Literal

namespace Text

variable {s t u v : List Char}

@[simp] theorem isSpaces_nil : IsSpaces [] := by
  intro x hx
  cases hx

@[simp] theorem isName_nil : IsName [] := by
  intro x hx
  cases hx

theorem isSpaces_append (h : IsSpaces s) (h' : IsSpaces t) : IsSpaces (s ++ t) := by
  intro x hx
  rcases List.mem_append.mp hx with hx | hx
  · exact h x hx
  · exact h' x hx

theorem eq_nil_of_isSpaces (h : IsSpaces u) (hs : Halts isSpace (u ++ s)) : u = [] := by
  cases u with
  | nil => rfl
  | cons x u =>
      have hspace := h x List.mem_cons_self
      rw [halts_cons.mp hs] at hspace
      cases hspace

theorem dropWhile_of_isSpaces (h : IsSpaces s) : s.dropWhile isSpace = [] := by
  have := dropWhile_append_eq h (halts_nil (p := isSpace))
  rwa [List.append_nil] at this

theorem trim_append_left (h : IsSpaces u) : trim (u ++ s) = trim s := by
  rw [trim, trim, List.dropWhile_append_of_pos h]

theorem trim_append_right (h : IsSpaces v) : trim (s ++ v) = trim s := by
  have hv : ∀ x ∈ v.reverse, isSpace x = true := fun x hx => h x (List.mem_reverse.mp hx)
  rw [trim, trim, List.dropWhile_append]
  split
  · next he =>
      rw [dropWhile_of_isSpaces h, List.isEmpty_iff.mp he]
  · rw [List.reverse_append, List.dropWhile_append_of_pos hv]

end Text

theorem isRawChar_of_isSpace {x : Char} (h : isSpace x = true) : Cursor.isRawChar x = true := by
  simp only [Cursor.isRawChar, Bool.and_eq_true, bne_iff_ne]
  refine ⟨?_, ?_⟩ <;> rintro rfl <;> cases h

theorem isRaw_append {s u v : List Char} (hu : IsSpaces u) (h : IsRaw s) (hv : IsSpaces v) :
    IsRaw (u ++ (s ++ v)) := by
  refine ⟨fun x hx => ?_, fun x hx => ?_⟩
  · rcases List.mem_append.mp hx with hx | hx
    · exact isRawChar_of_isSpace (hu x hx)
    · rcases List.mem_append.mp hx with hx | hx
      · exact h.1 x hx
      · exact isRawChar_of_isSpace (hv x hx)
  · rw [List.dropWhile_append_of_pos hu, List.dropWhile_append] at hx
    split at hx
    · rw [dropWhile_of_isSpaces hv] at hx
      cases hx
    · next hne =>
        obtain ⟨y, w, hw⟩ := List.exists_cons_of_ne_nil (mt List.isEmpty_iff.mpr hne)
        rw [hw] at hx
        exact h.2 x (hw ▸ hx)

theorem derivesArgument_append {mode : Quoting} {s u v : List Char} {a : Argument} (hu : IsSpaces u)
    (h : DerivesArgument mode s a) (hv : IsSpaces v) : DerivesArgument mode (u ++ (s ++ v)) a := by
  cases h with
  | @call u' t v' c hu' h hv' =>
      have := DerivesArgument.call (isSpaces_append hu hu') h (isSpaces_append hv' hv)
      simpa only [List.append_assoc] using this
  | @literal u' t v' k j _ hu' hl hj ha hv' =>
      have := DerivesArgument.literal (isSpaces_append hu hu') hl hj ha (isSpaces_append hv' hv)
      simpa only [List.append_assoc] using this
  | raw h =>
      rw [← trim_append_right hv, ← trim_append_left hu]
      exact .raw (isRaw_append hu h hv)

namespace Cursor

variable {c d b e : Cursor}

theorem passes_skipSpace (c : Cursor) : ∃ u, c.Passes u c.skipSpace ∧ IsSpaces u :=
  ⟨_, c.passes_skipWhile isSpace, List.all_eq_true.mp List.all_takeWhile⟩

/-- Blanks before a place do not change where the next text starts. -/
theorem skipSpace_eq_of_passes {u : List Char} (hp : c.Passes u d) (hu : IsSpaces u) :
    c.skipSpace = d.skipSpace := by
  obtain ⟨u', hp', hu'⟩ := d.passes_skipSpace
  exact skipWhile_eq (hp.trans hp') (isSpaces_append hu hu') (halts_skipWhile _ d)

@[simp] theorem skipSpace_skipSpace (c : Cursor) : c.skipSpace.skipSpace = c.skipSpace :=
  skipWhile_of_halts (halts_skipWhile isSpace c)

theorem rest_ne_nil_of_passes {x : Char} (h : c.Passes [x] d) : c.rest ≠ [] := by
  rw [h.1]
  exact List.cons_ne_nil _ _

theorem rest_skipSpace_eq_nil (h : c.rest = []) : c.skipSpace.rest = [] := by
  rw [skipSpace, skipWhile, h]
  rfl

theorem rest_ne_nil_of_skipSpace (h : c.skipSpace.rest ≠ []) : c.rest ≠ [] :=
  mt rest_skipSpace_eq_nil h

theorem exists_passes_skipName (h : c.skipSpace.Passes ['$'] b) :
    ∃ u name w, c.Passes (u ++ '$' :: (name ++ w)) b.skipName ∧ IsSpaces u ∧ IsName name ∧
      IsSpaces w ∧ b.name = String.ofList name := by
  obtain ⟨u, hu, hu'⟩ := c.passes_skipSpace
  obtain ⟨w, hw, hw'⟩ := (b.skipWhile isNameChar).passes_skipSpace
  have hn : IsName (b.rest.takeWhile isNameChar) := List.all_eq_true.mp List.all_takeWhile
  have hp := hu.trans (h.trans ((b.passes_skipWhile isNameChar).trans hw))
  exact ⟨u, b.rest.takeWhile isNameChar, w, hp, hu', hn, hw', rfl⟩

theorem exists_passes_of_opens (h : Opens c b e) :
    ∃ u name w, c.Passes (u ++ '$' :: (name ++ (w ++ ['(']))) e ∧ IsSpaces u ∧ IsName name ∧
      IsSpaces w ∧ b.name = String.ofList name := by
  obtain ⟨u, name, w, hp, hspaces⟩ := exists_passes_skipName h.sigil
  refine ⟨u, name, w, ?_, hspaces⟩
  simpa only [List.append_assoc, List.cons_append] using hp.trans h.parenthesis

end Cursor

theorem isLiteral_of_closed {k : Kind} {mode : Quoting} {s : List Char}
    (hs : s.head? = some k.opening) (h : (Span.scan k mode s).closed = true) :
    IsLiteral k mode (Span.scan k mode s).text := by
  have hspan : Span.scan k mode s = ⟨(Span.scan k mode s).text, (Span.scan k mode s).rest, true⟩ := by
    rw [← h]
  exact ((scan_eq_iff hs).mp hspan).2

/-- A span that does not reach the end of the text is that of a literal. -/
theorem isLiteral_of_scan {k : Kind} {mode : Quoting} {s : List Char} (hs : s.head? = some k.opening)
    (h : (Span.scan k mode s).rest ≠ []) : IsLiteral k mode (Span.scan k mode s).text :=
  isLiteral_of_closed hs (Span.closed_of_rest_ne_nil h)

theorem isRaw_of_isPlain {c : Cursor} (h : c.IsPlain) (hs : Halts isSpace c.rest) :
    IsRaw (c.rest.takeWhile Cursor.isRawChar) := by
  refine ⟨List.all_eq_true.mp List.all_takeWhile, fun x hx => ?_⟩
  obtain ⟨n, _ | ⟨y, r⟩⟩ := c
  · cases hx
  · rw [List.takeWhile_cons] at hx
    split at hx
    · rw [List.dropWhile_cons_of_neg (Bool.eq_false_iff.mp (halts_cons.mp hs))] at hx
      cases hx
      intro hsigil
      rcases hsigil with rfl | hk
      · exact (h _ rfl).1 rfl
      · rw [(h _ rfl).2] at hk
        cases hk
    · cases hx

def CallSound (cfg : Config) (depth : Nat) (c : Cursor)
    (o : Except CallError (Call × Cursor)) : Prop :=
  ∀ v g, o = .ok (v, g) → ∃ u t, c.Passes (u ++ t) g ∧ IsSpaces u ∧ Derives cfg.quoting t v ∧
    v.depth + depth ≤ cfg.maxDepth + 1

def ListSound (cfg : Config) (depth : Nat) (c : Cursor)
    (o : Except CallError (List Argument × Cursor)) : Prop :=
  ∀ args f, o = .ok (args, f) → depth ≤ cfg.maxDepth → f.rest ≠ [] → f.skipSpace = f ∧
    ∃ t, c.Passes t f ∧ DerivesList cfg.quoting t args ∧
      Argument.depthList args + depth ≤ cfg.maxDepth

def ArgumentSound (cfg : Config) (depth : Nat) (c : Cursor)
    (o : Except CallError (Argument × Cursor)) : Prop :=
  ∀ a d, o = .ok (a, d) → depth ≤ cfg.maxDepth → Halts isSpace c.rest → d.rest ≠ [] →
    ∃ t, c.Passes t d ∧ DerivesArgument cfg.quoting t a ∧ a.depth + depth ≤ cfg.maxDepth

variable {cfg : Config} {depth : Nat} {c d b e f g : Cursor} {a : Argument} {args : List Argument}

theorem callSound_call (hd : depth ≤ cfg.maxDepth) (ho : Opens c b e)
    (hl : ListSound cfg depth e (.ok (args, f))) (hp : f.skipSpace.Passes [')'] g) :
    CallSound cfg depth c (.ok (⟨b.name, args⟩, g)) := by
  intro v g' heq
  cases heq
  have hf := Cursor.rest_ne_nil_of_skipSpace (Cursor.rest_ne_nil_of_passes hp)
  obtain ⟨hskip, body, hbody, hderives, hdepth⟩ := hl args f rfl hd hf
  obtain ⟨u, name, w, hopen, hu, hn, hw, hname⟩ := Cursor.exists_passes_of_opens ho
  rw [hskip] at hp
  refine ⟨u, '$' :: (name ++ (w ++ '(' :: (body ++ [')']))), ?_, hu, ?_, ?_⟩
  · simpa only [List.append_assoc, List.cons_append, List.nil_append] using
      hopen.trans (hbody.trans hp)
  · rw [hname]
    exact .call hn hw hderives
  · rw [Call.depth_mk]
    omega

/-- An argument that is read has the blanks on both sides in its text. -/
theorem ArgumentSound.exists_derives (h : ArgumentSound cfg depth c.skipSpace (.ok (a, d)))
    (hd : depth ≤ cfg.maxDepth) (hne : d.rest ≠ []) :
    ∃ t, c.Passes t d.skipSpace ∧ DerivesArgument cfg.quoting t a ∧
      a.depth + depth ≤ cfg.maxDepth := by
  obtain ⟨t, ht, hderives, hdepth⟩ := h a d rfl hd (Cursor.halts_skipWhile isSpace c) hne
  obtain ⟨u, hu, hu'⟩ := c.passes_skipSpace
  obtain ⟨w, hw, hw'⟩ := d.passes_skipSpace
  exact ⟨_, hu.trans (ht.trans hw), derivesArgument_append hu' hderives hw', hdepth⟩

theorem listSound_last (h : ArgumentSound cfg depth c.skipSpace (.ok (a, d))) :
    ListSound cfg depth c (.ok ([a], d.skipSpace)) := by
  intro args f heq hd hf
  cases heq
  obtain ⟨t, ht, hderives, hdepth⟩ := h.exists_derives hd (Cursor.rest_ne_nil_of_skipSpace hf)
  exact ⟨Cursor.skipSpace_skipSpace d, t, ht, .one hderives, by simpa⟩

theorem listSound_more (h : ArgumentSound cfg depth c.skipSpace (.ok (a, d)))
    (hp : d.skipSpace.Passes [','] e) (hl : ListSound cfg depth e (.ok (args, f))) :
    ListSound cfg depth c (.ok (a :: args, f)) := by
  intro args' f' heq hd hf
  cases heq
  obtain ⟨t, ht, hderives, hdepth⟩ := h.exists_derives hd
    (Cursor.rest_ne_nil_of_skipSpace (Cursor.rest_ne_nil_of_passes hp))
  obtain ⟨hskip, s, hs, hrest, hdepths⟩ := hl args f rfl hd hf
  refine ⟨hskip, t ++ ',' :: s, ht.trans (hp.trans hs), .more hderives hrest, ?_⟩
  rw [Argument.depthList_cons]
  omega

theorem argumentSound_call {v : Call} (hc : CallSound cfg (depth + 1) c (.ok (v, d))) :
    ArgumentSound cfg depth c (.ok (v.toArgument, d)) := by
  intro a' d' heq _ hs _
  cases heq
  obtain ⟨u, t, hp, hu, hderives, hdepth⟩ := hc v d rfl
  refine ⟨u ++ t, hp, ?_, ?_⟩
  · have := DerivesArgument.call hu hderives isSpaces_nil
    rwa [List.append_nil] at this
  · rw [Call.depth_toArgument]
    omega

theorem depth_of_ofJson? {v : Json} (h : Argument.ofJson? v = some a) : a.depth = 0 := by
  cases v <;> cases h <;> rfl

theorem argumentSound_literal {k : Kind} {v : Json} (hk : c.peek? = some k.opening)
    (hv : Json.decode (Span.scan k cfg.quoting c.rest).text = .ok v)
    (ha : Argument.ofJson? v = some a) :
    ArgumentSound cfg depth c (.ok (a, c.skipSpan k cfg.quoting)) := by
  intro a' d heq hd _ hne
  cases heq
  refine ⟨_, c.passes_skipSpan k cfg.quoting, ?_, ?_⟩
  · have := DerivesArgument.literal isSpaces_nil (isLiteral_of_scan hk hne) hv ha isSpaces_nil
    rwa [List.append_nil] at this
  · rw [depth_of_ofJson? ha]
    omega

theorem argumentSound_raw (h : c.IsPlain) :
    ArgumentSound cfg depth c (.ok (.raw (.ofList c.rawToken), c.skipRaw)) := by
  intro a' d heq hd hs _
  cases heq
  refine ⟨_, c.passes_skipWhile Cursor.isRawChar, .raw (isRaw_of_isPlain h hs), ?_⟩
  simpa

mutual

theorem callSound_of_reads {cfg : Config} {depth : Nat} {c : Cursor} {es : List Event}
    {o : Except CallError (Call × Cursor)} (h : ReadsCall cfg depth c es o) :
    CallSound cfg depth c o := by
  match h with
  | .tooDeep _ | .noSigil _ _ | .noOpening _ _ _ | .badArguments _ _ _ | .noClosing _ _ _ _ =>
      intro v g heq
      cases heq
  | .call hd ho hl hp => exact callSound_call hd ho (listSound_of_reads hl) hp

theorem listSound_of_reads {cfg : Config} {depth : Nat} {c : Cursor} {es : List Event}
    {o : Except CallError (List Argument × Cursor)} (h : ReadsList cfg depth c es o) :
    ListSound cfg depth c o := by
  match h with
  | .badFirst _ | .badRest _ _ _ =>
      intro args f heq
      cases heq
  | .last ha _ => exact listSound_last (argumentSound_of_reads ha)
  | .more ha hp hl => exact listSound_more (argumentSound_of_reads ha) hp (listSound_of_reads hl)

theorem argumentSound_of_reads {cfg : Config} {depth : Nat} {c : Cursor} {es : List Event}
    {o : Except CallError (Argument × Cursor)} (h : ReadsArgument cfg depth c es o) :
    ArgumentSound cfg depth c o := by
  match h with
  | .badCall _ _ | .badLiteral _ _ =>
      intro a d heq
      cases heq
  | .call _ hc => exact argumentSound_call (callSound_of_reads hc)
  | .literal hk hv ha => exact argumentSound_literal hk hv ha
  | .raw h => exact argumentSound_raw h

end

end SigilCall
