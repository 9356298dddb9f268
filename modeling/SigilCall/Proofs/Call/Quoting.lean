import SigilCall.Proofs.Call.Completeness
import SigilCall.Proofs.Call.Offsets
import SigilCall.Proofs.Literal.Crossing

namespace SigilCall

open Text Literal

namespace Literal

variable {k : Kind} {r : Region} {x : Char} {s : SpanState} {t : List Char}

theorem region_step_eq (hx : x ≠ '\\') (hr : r ≠ .afterBackslash) :
    r.step .escaped x = r.step .naive x ∧ r.step .naive x ≠ .afterBackslash := by
  cases r with
  | afterBackslash => exact absurd rfl hr
  | plain | quoted => by_cases hq : x = '"' <;> simp [Region.step, hx, hq]

/-- The modes differ only in what a backslash does. -/
theorem scanFrom_escaped_eq (hr : s.region ≠ .afterBackslash)
    (h : '\\' ∉ (Span.scanFrom k .naive s t).text) :
    Span.scanFrom k .escaped s t = Span.scanFrom k .naive s t := by
  induction t generalizing s with
  | nil => rfl
  | cons x t ih =>
      have hx : x ≠ '\\' := by
        rintro rfl
        apply h
        rw [Span.scanFrom]
        split <;> exact List.mem_cons_self
      obtain ⟨hstep, hne⟩ := region_step_eq hx hr
      have hstate : s.step k .escaped x = s.step k .naive x := by
        rw [SpanState.step, SpanState.step, hstep]
      rw [Span.scanFrom] at h ⊢
      rw [Span.scanFrom, hstate]
      by_cases hd : (s.step k .naive x).depth = 0
      · simp only [if_pos hd]
      · simp only [if_neg hd] at h ⊢
        rw [ih hne fun hmem => h (List.mem_cons_of_mem x hmem)]

theorem scan_escaped_eq (h : '\\' ∉ (Span.scan k .naive t).text) :
    Span.scan k .escaped t = Span.scan k .naive t :=
  scanFrom_escaped_eq (s := .start) (fun h => nomatch h) h

end Literal

variable {α : Type} {m depth : Nat} {c d b e f g : Cursor} {x : CallError} {a : Argument}
  {args : List Argument}

def IsBackslashFault (c : Cursor) (x : CallError) : Prop :=
  ∃ k d y, x = .badLiteral k d.pos y ∧ c ≤ d ∧ '\\' ∈ (Span.scan k .naive d.rest).text

theorem IsBackslashFault.mono (h : IsBackslashFault d x) (hc : c ≤ d) : IsBackslashFault c x := by
  obtain ⟨k, e, y, hx, he, hb⟩ := h
  exact ⟨k, e, y, hx, Cursor.le_trans hc he, hb⟩

def Diverges (c : Cursor) (o o' : Except CallError (α × Cursor)) : Prop :=
  ∃ x, o = .error x ∧ IsBackslashFault c x ∧ NotBefore x.offset o'

def Agrees (c : Cursor) (o o' : Except CallError (α × Cursor)) : Prop := o' = o ∨ Diverges c o o'

def AgreesUpToSpace (c : Cursor) (o o' : Except CallError (Argument × Cursor)) : Prop :=
  o' = o ∨ (∃ a d d', o = .ok (a, d) ∧ o' = .ok (a, d') ∧ d'.skipSpace = d.skipSpace) ∨
    Diverges c o o'

def CallAgrees (m depth : Nat) (c : Cursor) (o : Except CallError (Call × Cursor)) : Prop :=
  ∃ es o', ReadsCall ⟨m, .escaped⟩ depth c es o' ∧ Agrees c o o'

def ListAgrees (m depth : Nat) (c : Cursor) (o : Except CallError (List Argument × Cursor)) : Prop :=
  ∃ es o', ReadsList ⟨m, .escaped⟩ depth c es o' ∧ Agrees c o o'

def ArgumentAgrees (m depth : Nat) (c : Cursor) (o : Except CallError (Argument × Cursor)) : Prop :=
  ∃ es o', ReadsArgument ⟨m, .escaped⟩ depth c es o' ∧ AgreesUpToSpace c o o'

theorem Agrees.eq_ok {p : α × Cursor} {o : Except CallError (α × Cursor)}
    (h : Agrees c (.ok p) o) : o = .ok p := by
  rcases h with rfl | ⟨_, ⟨⟩, _⟩
  rfl

theorem AgreesUpToSpace.eq_ok {o : Except CallError (Argument × Cursor)}
    (h : AgreesUpToSpace c (.ok (a, d)) o) :
    ∃ d', o = .ok (a, d') ∧ d'.skipSpace = d.skipSpace := by
  rcases h with rfl | ⟨_, _, d', ⟨⟩, ho, hskip⟩ | ⟨_, ⟨⟩, _⟩
  · exact ⟨d, rfl, rfl⟩
  · exact ⟨d', ho, hskip⟩

theorem callAgrees_badArguments (hd : depth ≤ m) (ho : Opens c b e)
    (hl : ListAgrees m depth e (.error x)) : CallAgrees m depth c (.error x) := by
  obtain ⟨es, o, hl, rfl | ⟨_, ⟨⟩, hfault, hn⟩⟩ := hl
  · exact ⟨_, _, .badArguments hd ho hl, .inl rfl⟩
  · obtain ⟨es', o', hr, hn'⟩ := exists_readsCall hd ho hl hn
    exact ⟨es', o', hr, .inr ⟨x, rfl, hfault.mono ho.le, hn'⟩⟩

theorem callAgrees_noClosing (hd : depth ≤ m) (ho : Opens c b e)
    (hl : ListAgrees m depth e (.ok (args, f))) (hs : f.skipSpace.peek? ≠ some ')') :
    CallAgrees m depth c (.error (.missing .closing f.skipSpace.pos)) := by
  obtain ⟨es, o, hl, h⟩ := hl
  obtain rfl := h.eq_ok
  exact ⟨_, _, .noClosing hd ho hl hs, .inl rfl⟩

theorem callAgrees_call (hd : depth ≤ m) (ho : Opens c b e)
    (hl : ListAgrees m depth e (.ok (args, f))) (hp : f.skipSpace.Passes [')'] g) :
    CallAgrees m depth c (.ok (⟨b.name, args⟩, g)) := by
  obtain ⟨es, o, hl, h⟩ := hl
  obtain rfl := h.eq_ok
  exact ⟨_, _, .call hd ho hl hp, .inl rfl⟩

theorem listAgrees_badFirst (ha : ArgumentAgrees m depth c.skipSpace (.error x)) :
    ListAgrees m depth c (.error x) := by
  obtain ⟨es, o, ha, rfl | ⟨_, _, _, ⟨⟩, _⟩ | ⟨_, ⟨⟩, hfault, hn⟩⟩ := ha
  · exact ⟨_, _, .badFirst ha, .inl rfl⟩
  · obtain ⟨es', o', hr, hn'⟩ := exists_readsList_first ha hn
    exact ⟨es', o', hr, .inr ⟨x, rfl, hfault.mono c.le_skipSpace, hn'⟩⟩

theorem listAgrees_last (ha : ArgumentAgrees m depth c.skipSpace (.ok (a, d)))
    (hs : d.skipSpace.peek? ≠ some ',') : ListAgrees m depth c (.ok ([a], d.skipSpace)) := by
  obtain ⟨es, o, ha, h⟩ := ha
  obtain ⟨d', rfl, hskip⟩ := h.eq_ok
  exact ⟨_, _, .last ha (hskip.symm ▸ hs), .inl (by rw [hskip])⟩

theorem listAgrees_badRest (ha : ArgumentAgrees m depth c.skipSpace (.ok (a, d)))
    (he : d.skipSpace.Passes [','] e) (hl : ListAgrees m depth e (.error x)) :
    ListAgrees m depth c (.error x) := by
  obtain ⟨es, o, ha, h⟩ := ha
  obtain ⟨d', rfl, hskip⟩ := h.eq_ok
  rw [← hskip] at he
  obtain ⟨es', o', hl, rfl | ⟨_, ⟨⟩, hfault, hn⟩⟩ := hl
  · exact ⟨_, _, .badRest ha he hl, .inl rfl⟩
  · obtain ⟨es'', o'', hr, hn'⟩ := exists_readsList_rest ha he hl hn
    exact ⟨es'', o'', hr, .inr ⟨x, rfl, hfault.mono (le_of_comma ha he), hn'⟩⟩

theorem listAgrees_more (ha : ArgumentAgrees m depth c.skipSpace (.ok (a, d)))
    (he : d.skipSpace.Passes [','] e) (hl : ListAgrees m depth e (.ok (args, f))) :
    ListAgrees m depth c (.ok (a :: args, f)) := by
  obtain ⟨es, o, ha, h⟩ := ha
  obtain ⟨d', rfl, hskip⟩ := h.eq_ok
  rw [← hskip] at he
  obtain ⟨es', o', hl, h⟩ := hl
  obtain rfl := h.eq_ok
  exact ⟨_, _, .more ha he hl, .inl rfl⟩

theorem argumentAgrees_badCall (hs : c.peek? = some '$')
    (hc : CallAgrees m (depth + 1) c (.error x)) : ArgumentAgrees m depth c (.error x) := by
  obtain ⟨es, o, hc, rfl | ⟨_, ⟨⟩, hfault, hn⟩⟩ := hc
  · exact ⟨_, _, .badCall hs hc, .inl rfl⟩
  · match o with
    | .error y => exact ⟨_, _, .badCall hs hc, .inr (.inr ⟨x, rfl, hfault, hn⟩)⟩
    | .ok (v, d) => exact ⟨_, _, .call hs hc, .inr (.inr ⟨x, rfl, hfault, hn⟩)⟩

theorem argumentAgrees_call {v : Call} (hs : c.peek? = some '$')
    (hc : CallAgrees m (depth + 1) c (.ok (v, d))) :
    ArgumentAgrees m depth c (.ok (v.toArgument, d)) := by
  obtain ⟨es, o, hc, h⟩ := hc
  obtain rfl := h.eq_ok
  exact ⟨_, _, .call hs hc, .inl rfl⟩

theorem argumentAgrees_badLiteral {k : Kind} {y : Json.DecodeError}
    (hk : c.peek? = some k.opening)
    (hy : Json.decode (Span.scan k .naive c.rest).text = .error y) :
    ArgumentAgrees m depth c (.error (.badLiteral k c.pos y)) := by
  by_cases hb : '\\' ∈ (Span.scan k .naive c.rest).text
  · have hr := (obeys_rules ⟨m, .escaped⟩).2.2 depth c
    exact ⟨_, _, hr, .inr (.inr ⟨_, rfl, ⟨k, c, y, rfl, c.le_refl, hb⟩,
      notBefore_of_readsArgument hr⟩)⟩
  · refine ⟨_, _, .badLiteral hk ?_, .inl rfl⟩
    rw [scan_escaped_eq hb]
    exact hy

theorem isSpaces_of_isBlank {b : List Char} (h : Json.IsBlank b) : IsSpaces b := by
  intro x hx
  rcases Json.Read.isBlank_iff.mp (h x hx) with rfl | rfl | rfl | rfl <;> rfl

/-- A span with no end may take blanks after its literal to the end of the text. An escaped span does
not, since it stops at the closing bracket. -/
theorem exists_scan_of_decode {k : Kind} {mode : Quoting} {t : List Char} {v : Json}
    (hk : t.head? = some k.opening) (hv : Json.decode (Span.scan k mode t).text = .ok v) :
    ∃ s b, (Span.scan k mode t).text = s ++ b ∧ IsSpaces b ∧ Json.decode s = .ok v ∧
      Span.scan k .escaped t = ⟨s, b ++ (Span.scan k mode t).rest, true⟩ := by
  obtain ⟨s, b, ht, hs, hw, hb⟩ := exists_writes_of_decode hv (head?_scan hk)
  refine ⟨s, b, ht, isSpaces_of_isBlank hb, Json.decode_of_writes hw, ?_⟩
  have hscan := scan_of_isValue (Json.isValue_of_writes hw) hs (b ++ (Span.scan k mode t).rest)
  rwa [← List.append_assoc, ← ht, Span.scan_append] at hscan

theorem argumentAgrees_literal {k : Kind} {v : Json} (hk : c.peek? = some k.opening)
    (hv : Json.decode (Span.scan k .naive c.rest).text = .ok v)
    (ha : Argument.ofJson? v = some a) :
    ArgumentAgrees m depth c (.ok (a, c.skipSpan k .naive)) := by
  obtain ⟨s, b, ht, hb, hv', hscan⟩ := exists_scan_of_decode hk hv
  refine ⟨_, _, .literal hk (by rw [hscan]; exact hv') ha,
    .inr (.inl ⟨a, _, _, rfl, rfl, Cursor.skipSpace_eq_of_passes (u := b) ⟨?_, ?_⟩ hb⟩)⟩
  · simp [Cursor.skipSpan, hscan]
  · simp [Cursor.skipSpan, hscan, ht, Nat.add_assoc]

theorem argumentAgrees_raw (h : c.IsPlain) :
    ArgumentAgrees m depth c (.ok (.raw (.ofList c.rawToken), c.skipRaw)) :=
  ⟨_, _, .raw h, .inl rfl⟩

mutual

/-- A reading in escaped mode follows one in naive mode, up to where that one fails in a literal with
a backslash in it. -/
theorem callAgrees_of_reads {m depth : Nat} {c : Cursor} {es : List Event}
    {o : Except CallError (Call × Cursor)} (h : ReadsCall ⟨m, .naive⟩ depth c es o) :
    CallAgrees m depth c o := by
  match h with
  | .tooDeep hd => exact ⟨_, _, .tooDeep hd, .inl rfl⟩
  | .noSigil hd hs => exact ⟨_, _, .noSigil hd hs, .inl rfl⟩
  | .noOpening hd hb hs => exact ⟨_, _, .noOpening hd hb hs, .inl rfl⟩
  | .badArguments hd ho hl => exact callAgrees_badArguments hd ho (listAgrees_of_reads hl)
  | .noClosing hd ho hl hs => exact callAgrees_noClosing hd ho (listAgrees_of_reads hl) hs
  | .call hd ho hl hp => exact callAgrees_call hd ho (listAgrees_of_reads hl) hp

theorem listAgrees_of_reads {m depth : Nat} {c : Cursor} {es : List Event}
    {o : Except CallError (List Argument × Cursor)} (h : ReadsList ⟨m, .naive⟩ depth c es o) :
    ListAgrees m depth c o := by
  match h with
  | .badFirst ha => exact listAgrees_badFirst (argumentAgrees_of_reads ha)
  | .last ha hs => exact listAgrees_last (argumentAgrees_of_reads ha) hs
  | .badRest ha he hl =>
      exact listAgrees_badRest (argumentAgrees_of_reads ha) he (listAgrees_of_reads hl)
  | .more ha he hl =>
      exact listAgrees_more (argumentAgrees_of_reads ha) he (listAgrees_of_reads hl)

theorem argumentAgrees_of_reads {m depth : Nat} {c : Cursor} {es : List Event}
    {o : Except CallError (Argument × Cursor)} (h : ReadsArgument ⟨m, .naive⟩ depth c es o) :
    ArgumentAgrees m depth c o := by
  match h with
  | .badCall hs hc => exact argumentAgrees_badCall hs (callAgrees_of_reads hc)
  | .call hs hc => exact argumentAgrees_call hs (callAgrees_of_reads hc)
  | .badLiteral hk hy => exact argumentAgrees_badLiteral hk hy
  | .literal hk hv ha => exact argumentAgrees_literal hk hv ha
  | .raw hp => exact argumentAgrees_raw hp

end

def FailsAtBackslash (m : Nat) (text : String) (n : Nat) : Prop :=
  ∃ k y t, (⟨m, .naive⟩ : Config).leadingCall text = .error (.badLiteral k n y) ∧
    dropBytes? text.toList n = some t ∧ '\\' ∈ (Span.scan k .naive t).text

variable {text : String} {n : Nat}

theorem FailsAtBackslash.result (h : FailsAtBackslash m text n) :
    ∃ x, (⟨m, .naive⟩ : Config).leadingCall text = .error x ∧ x.offset = n := by
  obtain ⟨k, y, t, h, -⟩ := h
  exact ⟨_, h, rfl⟩

theorem leadingCall_eq_or_fails (m : Nat) (text : String) :
    (⟨m, .escaped⟩ : Config).leadingCall text = (⟨m, .naive⟩ : Config).leadingCall text ∨
      ∃ n, FailsAtBackslash m text n ∧
        ∀ x, (⟨m, .escaped⟩ : Config).leadingCall text = .error x → n ≤ x.offset := by
  have h := (obeys_rules ⟨m, .naive⟩).1 1 (.start text.toList)
  obtain ⟨es, o, h', hagrees⟩ := callAgrees_of_reads h
  have hnaive := result_run_of_reads h
  have hescaped := result_run_of_reads h'
  rcases hagrees with rfl | ⟨x, ho, ⟨k, d, y, rfl, hd, hb⟩, hn⟩
  · exact .inl (hescaped.trans hnaive.symm)
  · rw [ho] at hnaive
    refine .inr ⟨d.pos, ⟨k, y, d.rest, hnaive, Cursor.dropBytes?_of_le hd, hb⟩, ?_⟩
    intro x hx
    rw [Config.leadingCall, hescaped] at hx
    cases o with
    | error y =>
        cases hx
        exact hn
    | ok p => cases hx

/-- The modes read the same from a text, unless naive mode fails in a literal with a backslash in its
span. Then a failure in escaped mode is not before that place. So escaped mode reads all calls that
naive mode reads. -/
theorem leadingCall_escaped (m : Nat) (text : String) :
    ((∀ n, ¬ FailsAtBackslash m text n) →
      (⟨m, .escaped⟩ : Config).leadingCall text = (⟨m, .naive⟩ : Config).leadingCall text) ∧
    (∀ n, FailsAtBackslash m text n →
      ∀ x, (⟨m, .escaped⟩ : Config).leadingCall text = .error x → n ≤ x.offset) ∧
    ∀ v n, (⟨m, .naive⟩ : Config).leadingCall text = .ok (v, n) →
      (⟨m, .escaped⟩ : Config).leadingCall text = .ok (v, n) := by
  rcases leadingCall_eq_or_fails m text with heq | ⟨n, hfails, hbefore⟩
  · refine ⟨fun _ => heq, ?_, fun v n h => heq.trans h⟩
    intro n hfails x hx
    obtain ⟨y, hy, rfl⟩ := hfails.result
    rw [heq, hy] at hx
    cases hx
    exact Nat.le_refl _
  · obtain ⟨y, hy, rfl⟩ := hfails.result
    refine ⟨fun h => absurd hfails (h _), ?_, ?_⟩
    · intro n' hfails' x hx
      obtain ⟨y', hy', rfl⟩ := hfails'.result
      rw [hy] at hy'
      cases hy'
      exact hbefore x hx
    · intro v n h
      rw [hy] at h
      cases h

end SigilCall
