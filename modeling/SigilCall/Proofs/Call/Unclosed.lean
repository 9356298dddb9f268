import SigilCall.Proofs.Call.Quoting

namespace SigilCall

open Text Literal

namespace Literal

variable {k : Kind} {mode : Quoting} {s : SpanState} {t r : List Char} {x : Char}

theorem eq_closing_of_step (hs : s.depth ≠ 0) (h : (s.step k mode x).depth = 0) : x = k.closing := by
  have hstep : (s.step k mode x).depth = if s.region = .plain then k.step s.depth x else s.depth := rfl
  rw [hstep] at h
  split at h
  · rw [Kind.step] at h
    split at h
    · cases h
    · split at h
      · assumption
      · exact absurd h hs
  · exact absurd h hs

theorem getLast?_scanFrom (hs : s.depth ≠ 0) (h : (Span.scanFrom k mode s t).closed = true) :
    (Span.scanFrom k mode s t).text.getLast? = some k.closing := by
  induction t generalizing s with
  | nil => exact absurd (beq_iff_eq.mp h) hs
  | cons x t ih =>
      rw [Span.scanFrom] at h ⊢
      by_cases hd : (s.step k mode x).depth = 0
      · simp only [if_pos hd]
        rw [eq_closing_of_step hs hd]
        rfl
      · simp only [if_neg hd] at h ⊢
        rw [List.getLast?_cons, ih hd h]
        rfl

theorem getLast?_scan (hk : t.head? = some k.opening) (h : (Span.scan k mode t).closed = true) :
    (Span.scan k mode t).text.getLast? = some k.closing := by
  obtain ⟨u, rfl⟩ := List.head?_eq_some_iff.mp hk
  rw [scan_cons_opening] at h ⊢
  rw [List.getLast?_cons, getLast?_scanFrom Nat.one_ne_zero h]
  rfl

theorem eq_nil_of_isSpaces_of_closed {u v : List Char} (hk : t.head? = some k.opening)
    (h : (Span.scan k mode t).closed = true) (ht : (Span.scan k mode t).text = u ++ v)
    (hv : IsSpaces v) : v = [] := by
  have hlast := getLast?_scan hk h
  cases hv' : v.getLast? with
  | none => exact List.getLast?_eq_none_iff.mp hv'
  | some y =>
      rw [ht, List.getLast?_append, hv'] at hlast
      obtain rfl : y = k.closing := Option.some.inj hlast
      have hspace := hv _ (List.mem_of_getLast? hv')
      cases k <;> cases hspace

/-- The end of a literal that is decoded is the same in a longer text, so the span there has it too
if it is closed at all. -/
theorem closed_of_append {v v' : Json} (hk : t.head? = some k.opening)
    (hv : Json.decode (Span.scan k mode t).text = .ok v)
    (hv' : Json.decode (Span.scan k mode (t ++ r)).text = .ok v')
    (h : (Span.scan k mode (t ++ r)).closed = true) : (Span.scan k mode t).closed = true := by
  have hk' : (t ++ r).head? = some k.opening := by
    rw [List.head?_append, hk]
    rfl
  obtain ⟨s, b, ht, -, -, hscan⟩ := exists_scan_of_decode hk hv
  obtain ⟨s', b', ht', hb', -, hscan'⟩ := exists_scan_of_decode hk' hv'
  obtain ⟨hs, hliteral⟩ := (scan_eq_iff hk).mp hscan
  have hlong : Span.scan k .escaped (t ++ r) =
      ⟨s, (b ++ (Span.scan k mode t).rest) ++ r, true⟩ := by
    refine (scan_eq_iff hk').mpr ⟨?_, hliteral⟩
    rw [← List.append_assoc, ← hs]
  obtain rfl : s = s' := congrArg Span.text (hlong.symm.trans hscan')
  obtain rfl := eq_nil_of_isSpaces_of_closed hk' h ht' hb'
  have hshort := isLiteral_of_closed hk' h
  rw [ht', List.append_nil] at hshort
  rw [(scan_eq_iff hk).mpr ⟨hs, hshort⟩]

end Literal

namespace Cursor

variable {c d b e : Cursor} {t : List Char} {x : Char}

def extend (c : Cursor) (r : List Char) : Cursor := ⟨c.pos, c.rest ++ r⟩

@[simp] theorem extend_nil (c : Cursor) : c.extend [] = c := by
  rw [extend, List.append_nil]

theorem Passes.extend (h : c.Passes t d) (r : List Char) : (c.extend r).Passes t (d.extend r) := by
  refine ⟨?_, h.2⟩
  rw [Cursor.extend, h.1, List.append_assoc]
  rfl

theorem peek?_extend (h : c.peek? = some x) (r : List Char) : (c.extend r).peek? = some x := by
  rw [peek?, extend, List.head?_append]
  rw [peek?] at h
  rw [h]
  rfl

theorem skipSpace_extend (h : c.skipSpace.rest ≠ []) (r : List Char) :
    (c.extend r).skipSpace = c.skipSpace.extend r := by
  obtain ⟨u, hp, hu⟩ := c.passes_skipSpace
  obtain ⟨x, t, hx⟩ := List.exists_cons_of_ne_nil h
  have hhalts : Halts isSpace c.skipSpace.rest := halts_skipWhile isSpace c
  rw [hx] at hhalts
  refine skipSpace_eq (hp.extend r) hu ?_
  rw [extend, hx]
  exact halts_cons.mpr (halts_cons.mp hhalts)

end Cursor

theorem Opens.extend {c b e : Cursor} (h : Opens c b e) (r : List Char) :
    ∃ b', Opens (c.extend r) b' (e.extend r) := by
  obtain ⟨u, name, w, hp, hu, hn, hw, -⟩ := Cursor.exists_passes_of_opens h
  obtain ⟨b', e', ho, he, -⟩ := exists_opens hu hn hw (hp.extend r)
  rw [he.eq_of_nil]
  exact ⟨b', ho⟩

variable {cfg : Config} {depth : Nat} {c d b e f : Cursor} {a : Argument} {args : List Argument}
  {es es' : List Event} {x : CallError}

namespace Event

def isSpan : Event → Bool
  | spanScanned .. => true
  | _ => false

def isUnclosed : Event → Bool
  | spanScanned _ _ _ closed => !closed
  | _ => false

end Event

def EndsUnclosed (es : List Event) : Prop :=
  ∃ k m n, (es.filter Event.isSpan).getLast? = some (.spanScanned k m n false)

theorem EndsUnclosed.append (h : EndsUnclosed es') (es : List Event) : EndsUnclosed (es ++ es') := by
  obtain ⟨k, m, n, h⟩ := h
  refine ⟨k, m, n, ?_⟩
  rw [List.filter_append, List.getLast?_append, h]
  rfl

theorem EndsUnclosed.any (h : EndsUnclosed es) : es.any Event.isUnclosed = true := by
  obtain ⟨k, m, n, h⟩ := h
  exact List.any_eq_true.mpr ⟨_, (List.mem_filter.mp (List.mem_of_getLast? h)).1, rfl⟩

theorem endsUnclosed_spanEvent {mode : Quoting} {k : Kind}
    (h : (Span.scan k mode c.rest).closed = false) : EndsUnclosed [spanEvent mode k c] :=
  ⟨k, _, _, by rw [spanEvent, h]; rfl⟩

def CallRunsOut (cfg : Config) (depth : Nat) (c : Cursor) : Prop :=
  ∀ ⦃r es v g⦄, ¬ ReadsCall cfg depth (c.extend r) es (.ok (v, g))

def ListRunsOut (cfg : Config) (depth : Nat) (c : Cursor) : Prop :=
  ∀ ⦃r es args f⦄, ReadsList cfg depth (c.extend r) es (.ok (args, f)) → f.rest = []

def ArgumentRunsOut (cfg : Config) (depth : Nat) (c : Cursor) : Prop :=
  c.rest ≠ [] ∧
    ∀ ⦃r es a d⦄, ReadsArgument cfg depth (c.extend r) es (.ok (a, d)) → d.rest = []

theorem callRunsOut_of_list (ho : Opens c b e) (hl : ListRunsOut cfg depth e) :
    CallRunsOut cfg depth c := by
  intro r es v g h
  cases h with
  | call _ ho' hl' hg =>
      obtain ⟨b'', ho''⟩ := ho.extend r
      obtain rfl := ho''.unique ho'
      exact Cursor.rest_ne_nil_of_skipSpace (Cursor.rest_ne_nil_of_passes hg) (hl hl')

theorem listRunsOut_first (ha : ArgumentRunsOut cfg depth c.skipSpace) :
    ListRunsOut cfg depth c := by
  intro r es args f h
  cases h with
  | last ha' _ =>
      rw [Cursor.skipSpace_extend ha.1] at ha'
      exact Cursor.rest_skipSpace_eq_nil (ha.2 ha')
  | more ha' he _ =>
      rw [Cursor.skipSpace_extend ha.1] at ha'
      exact absurd (Cursor.rest_skipSpace_eq_nil (ha.2 ha')) (Cursor.rest_ne_nil_of_passes he)

/-- An argument before a comma is read in the same way in a longer text. -/
theorem exists_readsArgument_extend (hd : depth ≤ cfg.maxDepth)
    (ha : ReadsArgument cfg depth c.skipSpace es (.ok (a, d))) (he : d.skipSpace.Passes [','] e)
    (r : List Char) :
    ∃ es' d', ReadsArgument cfg depth (c.extend r).skipSpace es' (.ok (a, d')) ∧
      d'.skipSpace.Passes [','] (e.extend r) := by
  have hne := Cursor.rest_ne_nil_of_skipSpace (Cursor.rest_ne_nil_of_passes he)
  obtain ⟨t, ht, hderives, hdepth⟩ := (argumentSound_of_reads ha).exists_derives hd hne
  have hcomma := he.extend r
  obtain ⟨es', ⟨_, d'⟩, hread, rfl, hskip⟩ :=
    (argumentComplete_of_derives hderives rfl hd (ht.extend r) (hcomma.peek?_eq_some rfl)
      rfl).fits hdepth
  exact ⟨es', d', hread, hskip.symm ▸ hcomma⟩

theorem listRunsOut_rest (hd : depth ≤ cfg.maxDepth)
    (ha : ReadsArgument cfg depth c.skipSpace es (.ok (a, d))) (he : d.skipSpace.Passes [','] e)
    (hl : ListRunsOut cfg depth e) : ListRunsOut cfg depth c := by
  intro r es' args f h
  obtain ⟨es'', d', ha', he'⟩ := exists_readsArgument_extend hd ha he r
  cases h with
  | last ha'' hs =>
      cases ha'.unique ha''
      exact absurd (he'.peek?_eq_some rfl) hs
  | more ha'' he'' hl' =>
      cases ha'.unique ha''
      obtain rfl := he'.unique he''
      exact hl hl'

/-- An argument that runs out is the last one. -/
theorem not_argumentRunsOut (ha : ReadsArgument cfg depth c es (.ok (a, d)))
    (he : d.skipSpace.Passes [','] e) : ¬ ArgumentRunsOut cfg depth c := by
  intro h
  rw [← c.extend_nil] at ha
  exact Cursor.rest_ne_nil_of_skipSpace (Cursor.rest_ne_nil_of_passes he) (h.2 ha)

theorem rest_ne_nil_of_peek? {y : Char} (h : c.peek? = some y) : c.rest ≠ [] := by
  intro hc
  rw [Cursor.peek?, hc] at h
  cases h

theorem exists_readsCall_of_peek? (hs : c.peek? = some '$')
    (h : ReadsArgument cfg depth c es (.ok (a, d))) :
    ∃ v, ReadsCall cfg (depth + 1) c es (.ok (v, d)) := by
  cases h with
  | call _ hc => exact ⟨_, hc⟩
  | literal hk _ _ => exact absurd (Option.some.inj (hk.symm.trans hs)) (Kind.opening_ne_dollar _)
  | raw hp => exact absurd rfl (hp _ hs).1

theorem exists_decode_of_peek? {k : Kind} (hk : c.peek? = some k.opening)
    (h : ReadsArgument cfg depth c es (.ok (a, d))) :
    d = c.skipSpan k cfg.quoting ∧ es = [spanEvent cfg.quoting k c] ∧
      ∃ v, Json.decode (Span.scan k cfg.quoting c.rest).text = .ok v := by
  cases h with
  | call hs _ => exact absurd (Option.some.inj (hk.symm.trans hs)) (Kind.opening_ne_dollar k)
  | literal hk' hv _ =>
      obtain rfl := Kind.opening_injective (Option.some.inj (hk.symm.trans hk'))
      exact ⟨rfl, rfl, _, hv⟩
  | raw hp => exact absurd hk (hp.ne_opening k)

theorem argumentRunsOut_call (hs : c.peek? = some '$') (hc : CallRunsOut cfg (depth + 1) c) :
    ArgumentRunsOut cfg depth c := by
  refine ⟨rest_ne_nil_of_peek? hs, fun r es a d h => ?_⟩
  obtain ⟨v, hv⟩ := exists_readsCall_of_peek? (Cursor.peek?_extend hs r) h
  exact absurd hv (@hc r es v d)

theorem argumentRunsOut_literal {k : Kind} {v : Json} (hk : c.peek? = some k.opening)
    (hv : Json.decode (Span.scan k cfg.quoting c.rest).text = .ok v)
    (hopen : (Span.scan k cfg.quoting c.rest).closed = false) : ArgumentRunsOut cfg depth c := by
  refine ⟨rest_ne_nil_of_peek? hk, fun r es a d h => ?_⟩
  obtain ⟨rfl, -, v', hv'⟩ := exists_decode_of_peek? (Cursor.peek?_extend hk r) h
  apply Span.rest_eq_nil_of_closed
  apply Bool.eq_false_iff.mpr
  intro hclosed
  rw [closed_of_append hk hv hv' hclosed] at hopen
  cases hopen

def NoFault {α : Type} : Except CallError (α × Cursor) → Prop
  | .error x => x.source? = none
  | .ok _ => True

mutual

theorem callRunsOut_of_reads {cfg : Config} {depth : Nat} {c : Cursor} {es : List Event}
    {o : Except CallError (Call × Cursor)} (h : ReadsCall cfg depth c es o) (ho : NoFault o)
    (hes : es.any Event.isUnclosed = true) : CallRunsOut cfg depth c := by
  match h with
  | .tooDeep _ | .noSigil _ _ | .noOpening _ _ _ => cases hes
  | .badArguments hd hopens hl =>
      exact callRunsOut_of_list hopens (listRunsOut_of_reads hl hd ho hes)
  | .noClosing hd hopens hl _ | .call hd hopens hl _ =>
      exact callRunsOut_of_list hopens (listRunsOut_of_reads hl hd trivial hes)

theorem listRunsOut_of_reads {cfg : Config} {depth : Nat} {c : Cursor} {es : List Event}
    {o : Except CallError (List Argument × Cursor)} (h : ReadsList cfg depth c es o)
    (hd : depth ≤ cfg.maxDepth) (ho : NoFault o) (hes : es.any Event.isUnclosed = true) :
    ListRunsOut cfg depth c := by
  match h with
  | .badFirst ha => exact listRunsOut_first (argumentRunsOut_of_reads ha ho hes)
  | .last ha _ => exact listRunsOut_first (argumentRunsOut_of_reads ha trivial hes)
  | .badRest ha he hl =>
      rw [List.any_append, Bool.or_eq_true] at hes
      rcases hes with hes | hes
      · exact absurd (argumentRunsOut_of_reads ha trivial hes) (not_argumentRunsOut ha he)
      · exact listRunsOut_rest hd ha he (listRunsOut_of_reads hl hd ho hes)
  | .more ha he hl =>
      rw [List.any_append, Bool.or_eq_true] at hes
      rcases hes with hes | hes
      · exact absurd (argumentRunsOut_of_reads ha trivial hes) (not_argumentRunsOut ha he)
      · exact listRunsOut_rest hd ha he (listRunsOut_of_reads hl hd trivial hes)

theorem argumentRunsOut_of_reads {cfg : Config} {depth : Nat} {c : Cursor} {es : List Event}
    {o : Except CallError (Argument × Cursor)} (h : ReadsArgument cfg depth c es o) (ho : NoFault o)
    (hes : es.any Event.isUnclosed = true) : ArgumentRunsOut cfg depth c := by
  match h with
  | .badCall hs hc => exact argumentRunsOut_call hs (callRunsOut_of_reads hc ho hes)
  | .call hs hc => exact argumentRunsOut_call hs (callRunsOut_of_reads hc trivial hes)
  | .badLiteral _ _ => cases ho
  | .literal hk hv _ =>
      apply argumentRunsOut_literal hk hv
      simpa [spanEvent, Event.isUnclosed] using hes
  | .raw _ => cases hes

end

end SigilCall
