import SigilCall.Proofs.Call.Exactness
import SigilCall.Proofs.Call.Offsets

namespace SigilCall

open Text Literal

namespace Cursor

variable {n : Nat} {c c' d b e : Cursor} {t : List Char} {q : Char → Bool}

/-- The same place in two texts that do not differ up to the character at an offset, itself
included. -/
def SameTo (n : Nat) (c c' : Cursor) : Prop :=
  c'.pos = c.pos ∧ ∃ p x r r', c.rest = p ++ x :: r ∧ c'.rest = p ++ x :: r' ∧
    n = c.pos + byteLength p

namespace SameTo

theorem peek?_eq (h : SameTo n c c') : c'.peek? = c.peek? := by
  obtain ⟨-, p, x, r, r', hr, hr', -⟩ := h
  rw [peek?, peek?, hr, hr']
  cases p <;> rfl

theorem rest_ne_nil (h : SameTo n c c') : c.rest ≠ [] := by
  obtain ⟨-, p, x, r, r', hr, -, -⟩ := h
  simp [hr]

theorem passes (h : SameTo n c c') (hp : c.Passes t d) (hd : d.pos ≤ n) :
    ∃ d', c'.Passes t d' ∧ SameTo n d d' := by
  obtain ⟨hpos, p, x, r, r', hr, hr', rfl⟩ := h
  have hle : byteLength t ≤ byteLength p := by
    have := hp.2
    omega
  obtain ⟨w, rfl, hw⟩ := exists_eq_append_of_byteLength_le (hp.1.symm.trans hr) hle
  refine ⟨⟨d.pos, w ++ x :: r'⟩, ⟨?_, ?_⟩, rfl, w, x, r, r', hw, rfl, ?_⟩
  · rw [hr', List.append_assoc]
  · rw [hpos, ← hp.2]
  · simp [hp.2, Nat.add_assoc]

/-- The character that ends a run is the same in both texts, so the run is. -/
theorem skipWhile (h : SameTo n c c') (hd : (c.skipWhile q).pos ≤ n) :
    SameTo n (c.skipWhile q) (c'.skipWhile q) ∧ c'.rest.takeWhile q = c.rest.takeWhile q := by
  obtain ⟨d, hp, hs⟩ := h.passes (c.passes_skipWhile q) hd
  have hall : ∀ x ∈ c.rest.takeWhile q, q x = true := List.all_eq_true.mp List.all_takeWhile
  have hhalts : Halts q d.rest := by
    intro x hx
    exact halts_skipWhile q c x (hs.peek?_eq.symm.trans hx)
  rw [skipWhile_eq hp hall hhalts]
  exact ⟨hs, takeWhile_eq hp hall hhalts⟩

theorem skipSpace (h : SameTo n c c') (hd : c.skipSpace.pos ≤ n) :
    SameTo n c.skipSpace c'.skipSpace :=
  (h.skipWhile hd).1

theorem skipName (h : SameTo n b c') (hd : b.skipName.pos ≤ n) :
    SameTo n b.skipName c'.skipName ∧ c'.name = b.name := by
  obtain ⟨hs, hname⟩ := h.skipWhile (q := isNameChar) (Nat.le_trans (pos_le_skipSpace _) hd)
  exact ⟨hs.skipSpace hd, congrArg String.ofList hname⟩

theorem skipRaw (h : SameTo n c c') (hd : c.skipRaw.pos ≤ n) :
    SameTo n c.skipRaw c'.skipRaw ∧ c'.rawToken = c.rawToken := by
  obtain ⟨hs, hraw⟩ := h.skipWhile hd
  exact ⟨hs, congrArg trim hraw⟩

/-- A literal that ends before the texts differ is closed, so it ends there in both. -/
theorem skipSpan {k : Kind} {mode : Quoting} (h : SameTo n c c') (hk : c.peek? = some k.opening)
    (hd : (c.skipSpan k mode).pos ≤ n) :
    SameTo n (c.skipSpan k mode) (c'.skipSpan k mode) ∧
      (Span.scan k mode c'.rest).text = (Span.scan k mode c.rest).text ∧
      (Span.scan k mode c'.rest).closed = (Span.scan k mode c.rest).closed := by
  obtain ⟨d, hp', hs⟩ := h.passes (c.passes_skipSpan k mode) hd
  have hclosed : (Span.scan k mode c.rest).closed = true :=
    Span.closed_of_rest_ne_nil hs.rest_ne_nil
  have hscan : Span.scan k mode c'.rest = ⟨(Span.scan k mode c.rest).text, d.rest, true⟩ :=
    (scan_eq_iff (h.peek?_eq.trans hk)).mpr ⟨hp'.1, isLiteral_of_scan hk hs.rest_ne_nil⟩
  have hstop : c'.skipSpan k mode = d := by
    rw [Cursor.skipSpan, hscan, ← hp'.2]
  rw [hstop, hscan, hclosed]
  exact ⟨hs, rfl, rfl⟩

theorem opens (h : SameTo n c c') (ho : Opens c b e) (he : e.pos ≤ n) :
    ∃ b' e', Opens c' b' e' ∧ SameTo n e e' ∧ b'.name = b.name ∧ b'.pos = b.pos := by
  have hopening := Cursor.pos_le ho.parenthesis.le
  have hname := Cursor.pos_le (le_skipName b)
  have hsigil := Cursor.pos_le ho.sigil.le
  have hc := h.skipSpace (by omega)
  obtain ⟨b', hb', hb⟩ := hc.passes ho.sigil (by omega)
  obtain ⟨hskip, hsame⟩ := hb.skipName (by omega)
  obtain ⟨e', he', hs⟩ := hskip.passes ho.parenthesis he
  exact ⟨b', e', ⟨hb', he'⟩, hs, hsame, hb.1⟩

end SameTo

end Cursor

open Cursor (SameTo)

variable {α : Type} {cfg : Config} {n depth : Nat} {c c' d b e f g : Cursor} {x : CallError}
  {a : Argument} {args : List Argument} {es es' : List Event}

def DecidedBy (n : Nat) : Except CallError (α × Cursor) → Prop
  | .error x => x.source? = none ∧ x.offset ≤ n
  | .ok (_, d) => d.pos ≤ n

def Follows (n : Nat) : Except CallError (α × Cursor) → Except CallError (α × Cursor) → Prop
  | .error x, o => o = .error x
  | .ok (a, d), o => ∃ d', o = .ok (a, d') ∧ SameTo n d d'

def CallLocal (cfg : Config) (depth : Nat) (c : Cursor) (es : List Event)
    (o : Except CallError (Call × Cursor)) : Prop :=
  ∀ ⦃n c'⦄, SameTo n c c' → DecidedBy n o → ∃ o', ReadsCall cfg depth c' es o' ∧ Follows n o o'

def ListLocal (cfg : Config) (depth : Nat) (c : Cursor) (es : List Event)
    (o : Except CallError (List Argument × Cursor)) : Prop :=
  ∀ ⦃n c'⦄, SameTo n c c' → DecidedBy n o → ∃ o', ReadsList cfg depth c' es o' ∧ Follows n o o'

def ArgumentLocal (cfg : Config) (depth : Nat) (c : Cursor) (es : List Event)
    (o : Except CallError (Argument × Cursor)) : Prop :=
  ∀ ⦃n c'⦄, SameTo n c c' → DecidedBy n o →
    ∃ o', ReadsArgument cfg depth c' es o' ∧ Follows n o o'

theorem callLocal_tooDeep (hd : cfg.maxDepth < depth) :
    CallLocal cfg depth c [] (.error (.tooDeep cfg.maxDepth c.skipSpace.pos)) := by
  intro n c' h hn
  have hpos := (h.skipSpace hn.2).1
  exact ⟨_, .tooDeep hd, by rw [Follows, hpos]⟩

theorem callLocal_noSigil (hd : depth ≤ cfg.maxDepth) (hs : c.skipSpace.peek? ≠ some '$') :
    CallLocal cfg depth c [] (.error (.missing .sigil c.skipSpace.pos)) := by
  intro n c' h hn
  have hskip := h.skipSpace hn.2
  exact ⟨_, .noSigil hd (hskip.peek?_eq.symm ▸ hs), by rw [Follows, hskip.1]⟩

theorem callLocal_noOpening (hd : depth ≤ cfg.maxDepth) (hb : c.skipSpace.Passes ['$'] b)
    (hs : b.skipName.peek? ≠ some '(') :
    CallLocal cfg depth c [.nameRead b.name depth b.pos]
      (.error (.missing .opening b.skipName.pos)) := by
  intro n c' h hn
  have hn : b.skipName.pos ≤ n := hn.2
  have hname := Cursor.pos_le (le_skipName b)
  have hsigil := Cursor.pos_le hb.le
  obtain ⟨b', hb', hsame⟩ := (h.skipSpace (by omega)).passes hb (by omega)
  obtain ⟨hskip, heq⟩ := hsame.skipName hn
  have hread := ReadsCall.noOpening hd hb' (hskip.peek?_eq.symm ▸ hs)
  rw [heq, hsame.1, hskip.1] at hread
  exact ⟨_, hread, rfl⟩

theorem callLocal_badArguments (hd : depth ≤ cfg.maxDepth) (ho : Opens c b e)
    (hle : Ahead e (.error x : Except CallError (List Argument × Cursor)))
    (hl : ListLocal cfg depth e es (.error x)) :
    CallLocal cfg depth c (.nameRead b.name depth b.pos :: es) (.error x) := by
  intro n c' h hn
  obtain ⟨b', e', ho', hsame, hname, hpos⟩ := h.opens ho (Nat.le_trans hle.notBefore hn.2)
  obtain ⟨_, hread, rfl⟩ := hl hsame hn
  rw [← hname, ← hpos]
  exact ⟨_, .badArguments hd ho' hread, rfl⟩

theorem callLocal_noClosing (hd : depth ≤ cfg.maxDepth) (ho : Opens c b e) (hle : e ≤ f)
    (hl : ListLocal cfg depth e es (.ok (args, f))) (hs : f.skipSpace.peek? ≠ some ')') :
    CallLocal cfg depth c (.nameRead b.name depth b.pos :: es)
      (.error (.missing .closing f.skipSpace.pos)) := by
  intro n c' h hn
  have hf : f.pos ≤ n := Nat.le_trans (pos_le_skipSpace f) hn.2
  obtain ⟨b', e', ho', hsame, hname, hpos⟩ := h.opens ho (Nat.le_trans (Cursor.pos_le hle) hf)
  obtain ⟨_, hread, f', rfl, hfollow⟩ := hl hsame hf
  have hskip := hfollow.skipSpace hn.2
  rw [← hname, ← hpos]
  exact ⟨_, .noClosing hd ho' hread (hskip.peek?_eq.symm ▸ hs), by rw [Follows, hskip.1]⟩

theorem callLocal_call (hd : depth ≤ cfg.maxDepth) (ho : Opens c b e) (hle : e ≤ f)
    (hl : ListLocal cfg depth e es (.ok (args, f))) (hg : f.skipSpace.Passes [')'] g) :
    CallLocal cfg depth c (.nameRead b.name depth b.pos :: es) (.ok (⟨b.name, args⟩, g)) := by
  intro n c' h hn
  have hskip : f.skipSpace.pos ≤ n := Nat.le_trans (Cursor.pos_le hg.le) hn
  have hf : f.pos ≤ n := Nat.le_trans (pos_le_skipSpace f) hskip
  obtain ⟨b', e', ho', hsame, hname, hpos⟩ := h.opens ho (Nat.le_trans (Cursor.pos_le hle) hf)
  obtain ⟨_, hread, f', rfl, hfollow⟩ := hl hsame hf
  obtain ⟨g', hg', hend⟩ := (hfollow.skipSpace hskip).passes hg hn
  rw [← hname, ← hpos]
  exact ⟨_, .call hd ho' hread hg', g', rfl, hend⟩

theorem listLocal_badFirst (hle : Ahead c.skipSpace (.error x : Except CallError (Argument × Cursor)))
    (ha : ArgumentLocal cfg depth c.skipSpace es (.error x)) :
    ListLocal cfg depth c es (.error x) := by
  intro n c' h hn
  obtain ⟨_, hread, rfl⟩ := ha (h.skipSpace (Nat.le_trans hle.notBefore hn.2)) hn
  exact ⟨_, .badFirst hread, rfl⟩

theorem listLocal_last (hle : c.skipSpace ≤ d)
    (ha : ArgumentLocal cfg depth c.skipSpace es (.ok (a, d))) (hs : d.skipSpace.peek? ≠ some ',') :
    ListLocal cfg depth c es (.ok ([a], d.skipSpace)) := by
  intro n c' h hn
  have hd : d.pos ≤ n := Nat.le_trans (pos_le_skipSpace d) hn
  obtain ⟨_, hread, d', rfl, hfollow⟩ := ha (h.skipSpace (Nat.le_trans (Cursor.pos_le hle) hd)) hd
  have hskip := hfollow.skipSpace hn
  exact ⟨_, .last hread (hskip.peek?_eq.symm ▸ hs), _, rfl, hskip⟩

/-- Up to the comma after it, an argument is the same in both texts, and so is the place after the
comma. -/
theorem exists_comma (h : SameTo n c c') (hle : c.skipSpace ≤ d)
    (ha : ArgumentLocal cfg depth c.skipSpace es (.ok (a, d))) (he : d.skipSpace.Passes [','] e)
    (hn : e.pos ≤ n) :
    ∃ d' e', ReadsArgument cfg depth c'.skipSpace es (.ok (a, d')) ∧ d'.skipSpace.Passes [','] e' ∧
      SameTo n e e' := by
  have hskip : d.skipSpace.pos ≤ n := Nat.le_trans (Cursor.pos_le he.le) hn
  have hd : d.pos ≤ n := Nat.le_trans (pos_le_skipSpace d) hskip
  obtain ⟨_, hread, d', rfl, hfollow⟩ := ha (h.skipSpace (Nat.le_trans (Cursor.pos_le hle) hd)) hd
  obtain ⟨e', he', hsame⟩ := (hfollow.skipSpace hskip).passes he hn
  exact ⟨d', e', hread, he', hsame⟩

theorem listLocal_badRest (hle : c.skipSpace ≤ d)
    (ha : ArgumentLocal cfg depth c.skipSpace es (.ok (a, d))) (he : d.skipSpace.Passes [','] e)
    (hle' : Ahead e (.error x : Except CallError (List Argument × Cursor)))
    (hl : ListLocal cfg depth e es' (.error x)) : ListLocal cfg depth c (es ++ es') (.error x) := by
  intro n c' h hn
  obtain ⟨d', e', hread, he', hsame⟩ :=
    exists_comma h hle ha he (Nat.le_trans hle'.notBefore hn.2)
  obtain ⟨_, hrest, rfl⟩ := hl hsame hn
  exact ⟨_, .badRest hread he' hrest, rfl⟩

theorem listLocal_more (hle : c.skipSpace ≤ d)
    (ha : ArgumentLocal cfg depth c.skipSpace es (.ok (a, d))) (he : d.skipSpace.Passes [','] e)
    (hle' : e ≤ f) (hl : ListLocal cfg depth e es' (.ok (args, f))) :
    ListLocal cfg depth c (es ++ es') (.ok (a :: args, f)) := by
  intro n c' h hn
  obtain ⟨d', e', hread, he', hsame⟩ :=
    exists_comma h hle ha he (Nat.le_trans (Cursor.pos_le hle') hn)
  obtain ⟨_, hrest, f', rfl, hfollow⟩ := hl hsame hn
  exact ⟨_, .more hread he' hrest, f', rfl, hfollow⟩

theorem argumentLocal_badCall (hs : c.peek? = some '$')
    (hc : CallLocal cfg (depth + 1) c es (.error x)) : ArgumentLocal cfg depth c es (.error x) := by
  intro n c' h hn
  obtain ⟨_, hread, rfl⟩ := hc h hn
  exact ⟨_, .badCall (h.peek?_eq.trans hs) hread, rfl⟩

theorem argumentLocal_call {v : Call} (hs : c.peek? = some '$')
    (hc : CallLocal cfg (depth + 1) c es (.ok (v, d))) :
    ArgumentLocal cfg depth c es (.ok (v.toArgument, d)) := by
  intro n c' h hn
  obtain ⟨_, hread, d', rfl, hfollow⟩ := hc h hn
  exact ⟨_, .call (h.peek?_eq.trans hs) hread, d', rfl, hfollow⟩

theorem argumentLocal_literal {k : Kind} {v : Json} (hk : c.peek? = some k.opening)
    (hv : Json.decode (Span.scan k cfg.quoting c.rest).text = .ok v)
    (ha : Argument.ofJson? v = some a) :
    ArgumentLocal cfg depth c [spanEvent cfg.quoting k c] (.ok (a, c.skipSpan k cfg.quoting)) := by
  intro n c' h hn
  obtain ⟨hsame, htext, hclosed⟩ := h.skipSpan hk hn
  have hevent : spanEvent cfg.quoting k c' = spanEvent cfg.quoting k c := by
    rw [spanEvent, spanEvent, h.1, hsame.1, hclosed]
  rw [← hevent]
  exact ⟨_, .literal (h.peek?_eq.trans hk) (htext ▸ hv) ha, _, rfl, hsame⟩

theorem argumentLocal_raw (hp : c.IsPlain) :
    ArgumentLocal cfg depth c [rawEvent c] (.ok (.raw (.ofList c.rawToken), c.skipRaw)) := by
  intro n c' h hn
  obtain ⟨hsame, htoken⟩ := h.skipRaw hn
  have hplain : c'.IsPlain := fun x hx => hp x (h.peek?_eq.symm.trans hx)
  have hevent : rawEvent c' = rawEvent c := by
    rw [rawEvent, rawEvent, htoken, hsame.1]
  rw [← hevent, ← htoken]
  exact ⟨_, .raw hplain, _, rfl, hsame⟩

mutual

/-- A reading looks no further than the character at its outcome, unless a literal is at fault. -/
theorem callLocal_of_reads {cfg : Config} {depth : Nat} {c : Cursor} {es : List Event}
    {o : Except CallError (Call × Cursor)} (h : ReadsCall cfg depth c es o) :
    CallLocal cfg depth c es o := by
  match h with
  | .tooDeep hd => exact callLocal_tooDeep hd
  | .noSigil hd hs => exact callLocal_noSigil hd hs
  | .noOpening hd hb hs => exact callLocal_noOpening hd hb hs
  | .badArguments hd ho hl =>
      exact callLocal_badArguments hd ho (ahead_of_readsList hl) (listLocal_of_reads hl)
  | .noClosing hd ho hl hs =>
      exact callLocal_noClosing hd ho (ahead_of_readsList hl) (listLocal_of_reads hl) hs
  | .call hd ho hl hg =>
      exact callLocal_call hd ho (ahead_of_readsList hl) (listLocal_of_reads hl) hg

theorem listLocal_of_reads {cfg : Config} {depth : Nat} {c : Cursor} {es : List Event}
    {o : Except CallError (List Argument × Cursor)} (h : ReadsList cfg depth c es o) :
    ListLocal cfg depth c es o := by
  match h with
  | .badFirst ha => exact listLocal_badFirst (ahead_of_readsArgument ha) (argumentLocal_of_reads ha)
  | .last ha hs => exact listLocal_last (le_of_readsArgument ha) (argumentLocal_of_reads ha) hs
  | .badRest ha he hl =>
      exact listLocal_badRest (le_of_readsArgument ha) (argumentLocal_of_reads ha) he
        (ahead_of_readsList hl) (listLocal_of_reads hl)
  | .more ha he hl =>
      exact listLocal_more (le_of_readsArgument ha) (argumentLocal_of_reads ha) he
        (ahead_of_readsList hl) (listLocal_of_reads hl)

theorem argumentLocal_of_reads {cfg : Config} {depth : Nat} {c : Cursor} {es : List Event}
    {o : Except CallError (Argument × Cursor)} (h : ReadsArgument cfg depth c es o) :
    ArgumentLocal cfg depth c es o := by
  match h with
  | .badCall hs hc => exact argumentLocal_badCall hs (callLocal_of_reads hc)
  | .call hs hc => exact argumentLocal_call hs (callLocal_of_reads hc)
  | .badLiteral _ _ =>
      intro n c' _ hn
      cases hn.1
  | .literal hk hv ha => exact argumentLocal_literal hk hv ha
  | .raw hp => exact argumentLocal_raw hp

end

variable {text : String} {v : Call} {p q s tail : List Char}

/-- The text of a call ends in the same place whatever follows it. -/
theorem run_append_of_eq_ok (h : (cfg.run s).result = .ok (v, n)) (hp : takeBytes? s n = some p)
    (tail : List Char) : (cfg.run (p ++ tail)).result = .ok (v, n) := by
  obtain ⟨u, t, rest, rfl, rfl, hu, ht, hd⟩ := run_eq_ok_iff_derives.mp h
  rw [takeBytes?_byteLength] at hp
  cases hp
  exact run_eq_ok_iff_derives.mpr ⟨u, t, tail, rfl, rfl, hu, ht, hd⟩

/-- Less than the text of a call is not the text of one. -/
theorem exists_error_of_lt (h : (cfg.run (q ++ tail)).result = .ok (v, n)) (hn : byteLength q < n) :
    ∃ x, (cfg.run q).result = .error x := by
  cases hr : (cfg.run q).result with
  | error x => exact ⟨x, rfl⟩
  | ok r =>
      obtain ⟨v', m⟩ := r
      obtain ⟨u, t, rest, rfl, rfl, -⟩ := run_eq_ok_iff_derives.mp hr
      have hlong := run_append_of_eq_ok hr (takeBytes?_byteLength _ _) (rest ++ tail)
      rw [← List.append_assoc, h] at hlong
      obtain ⟨-, rfl⟩ := Prod.mk.inj (Except.ok.inj hlong)
      rw [byteLength_append _ rest] at hn
      omega

theorem exists_error_of_prefix (h : (cfg.run s).result = .ok (v, n))
    (hp : takeBytes? s n = some p) (hq : q <+: p) (hne : q ≠ p) :
    ∃ x, (cfg.run q).result = .error x := by
  obtain ⟨rest, rfl, rfl⟩ := takeBytes?_eq_some_iff.mp hp
  obtain ⟨w, rfl⟩ := hq
  have hw : 0 < byteLength w := by
    apply byteLength_pos
    rintro rfl
    exact hne (List.append_nil q).symm
  rw [List.append_assoc] at h
  exact exists_error_of_lt h (by simpa using hw)

/-- A fault in the structure of a call is the same whatever follows the character where it is. -/
theorem exists_run_eq_error (h : (cfg.run s).result = .error x) (hx : x.source? = none)
    (hn : x.offset < byteLength s) :
    ∃ p y, takeBytes? s x.offset = some p ∧ p ++ [y] <+: s ∧
      ∀ tail, (cfg.run (p ++ y :: tail)).result = .error x := by
  obtain ⟨es, hreads⟩ := run_eq_error_iff_reads.mp h
  obtain ⟨d, ⟨p, hpasses⟩, hd⟩ := (ahead_of_readsCall hreads).mono (Cursor.le_skipSpace _)
  obtain ⟨hp, hpos⟩ := Cursor.eq_of_passes_start hpasses
  rw [hd] at hpos
  cases hrest : d.rest with
  | nil =>
      rw [hp, hrest, List.append_nil, hpos] at hn
      exact absurd hn (Nat.lt_irrefl _)
  | cons y r =>
      rw [hrest] at hp
      refine ⟨p, y, takeBytes?_eq_some_iff.mpr ⟨_, hp, hpos⟩, ⟨r, by simp [hp]⟩, fun tail => ?_⟩
      have hsame : SameTo x.offset (.start s) (.start (p ++ y :: tail)) :=
        ⟨rfl, p, y, r, tail, hp, rfl, by rw [hpos]; exact (Nat.zero_add _).symm⟩
      obtain ⟨_, hread, rfl⟩ := callLocal_of_reads hreads hsame ⟨hx, Nat.le_refl _⟩
      exact run_eq_error_iff_reads.mpr ⟨es, hread⟩

theorem source?_eq_none (h : ∀ k n y, x ≠ .badLiteral k n y) : x.source? = none := by
  cases x with
  | badLiteral k n y => exact absurd rfl (h k n y)
  | missing | tooDeep => rfl

/-- What follows a call does not matter to it, and no text of a call starts another one. An error
before the end of the text that is not a fault in a literal is decided by the character where it
is. -/
theorem leadingCall_append (cfg : Config) (text : String) :
    (∀ v n, cfg.leadingCall text = .ok (v, n) → ∃ p, takeBytes? text.toList n = some p ∧
      (∀ tail, cfg.leadingCall (.ofList (p ++ tail)) = .ok (v, n)) ∧
      ∀ q, q <+: p → q ≠ p → ∃ x, cfg.leadingCall (.ofList q) = .error x) ∧
    ∀ x, cfg.leadingCall text = .error x → (∀ k n y, x ≠ .badLiteral k n y) →
      x.offset < byteLength text.toList →
      ∃ p y, takeBytes? text.toList x.offset = some p ∧ p ++ [y] <+: text.toList ∧
        ∀ tail, cfg.leadingCall (.ofList (p ++ y :: tail)) = .error x := by
  simp only [leadingCall_ofList]
  refine ⟨fun v n h => ?_, fun x h hx hn => exists_run_eq_error h (source?_eq_none hx) hn⟩
  obtain ⟨u, t, hp, -⟩ := exists_derives_of_leadingCall h
  exact ⟨u ++ t, hp, run_append_of_eq_ok h hp, fun q => exists_error_of_prefix h hp⟩

/-- The first text is that of a call to its end, and in the second one the third character is at
fault. -/
theorem leadingCall_append_nested :
    let cfg : Config := ⟨2, .naive⟩
    (∀ tail, cfg.leadingCall (.ofList ("$f($g(x))".toList ++ tail)) =
      .ok (⟨"f", [.call "g" [.raw "x"]]⟩, 9)) ∧
      ∀ tail, cfg.leadingCall (.ofList ("$f[".toList ++ tail)) = .error (.missing .opening 2) := by
  intro cfg
  have hv : cfg.leadingCall "$f($g(x)), y)" = .ok (⟨"f", [.call "g" [.raw "x"]]⟩, 9) := by
    dsimp only [cfg]
    with_unfolding_all rfl
  have hx : cfg.leadingCall "$f[x" = .error (.missing .opening 2) := by
    dsimp only [cfg]
    with_unfolding_all rfl
  constructor
  · obtain ⟨p, hp, htail, -⟩ := (leadingCall_append cfg "$f($g(x)), y)").1 _ _ hv
    obtain rfl : "$f($g(x))".toList = p := Option.some.inj hp
    exact htail
  · obtain ⟨p, y, hp, ⟨r, hr⟩, htail⟩ :=
      (leadingCall_append cfg "$f[x").2 _ hx (by intro k n z h; cases h) (by decide)
    obtain rfl : "$f".toList = p := Option.some.inj hp
    obtain rfl : y = '[' := by cases hr; rfl
    exact htail

end SigilCall
