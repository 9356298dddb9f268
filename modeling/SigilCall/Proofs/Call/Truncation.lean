import SigilCall.Proofs.Call.Locality
import SigilCall.Proofs.Call.Unterminated

namespace SigilCall

open Text Literal

/-- A literal that ends only where the text goes on runs to the end of the text. -/
theorem Literal.runsOut_of_text_ne {k : Kind} {mode : Quoting} {s r : List Char}
    (hk : s.head? = some k.opening) (h : (Span.scan k mode (s ++ r)).closed = true)
    (hne : (Span.scan k mode s).text ≠ (Span.scan k mode (s ++ r)).text) :
    (Span.scan k mode s).closed = false ∧ byteLength s < byteLength (Span.scan k mode (s ++ r)).text := by
  have hk' : (s ++ r).head? = some k.opening := by
    rw [List.head?_append, hk]
    rfl
  have hliteral := isLiteral_of_closed hk' h
  constructor
  · apply Bool.eq_false_iff.mpr
    intro hclosed
    have hshort := isLiteral_of_closed hk hclosed
    have hlong : Span.scan k mode (s ++ r) =
        ⟨(Span.scan k mode s).text, (Span.scan k mode s).rest ++ r, true⟩ := by
      refine (scan_eq_iff hk').mpr ⟨?_, hshort⟩
      rw [← List.append_assoc, Span.scan_append]
    exact hne (congrArg Span.text hlong).symm
  · apply Nat.lt_of_not_le
    intro hle
    obtain ⟨w, hs, -⟩ :=
      exists_eq_append_of_byteLength_le (Span.scan_append k mode (s ++ r)) hle
    have hshort : Span.scan k mode s = ⟨(Span.scan k mode (s ++ r)).text, w, true⟩ :=
      (scan_eq_iff hk).mpr ⟨hs, hliteral⟩
    exact hne (by rw [hshort])

variable {cfg : Config} {mode : Quoting} {k : Kind} {depth : Nat} {c d b e : Cursor}
  {x : CallError} {a : Argument} {es es' es₁ es₁' : List Event} {r : List Char}

def IsMended (mode : Quoting) (c : Cursor) (r : List Char) (es es' : List Event) (x : CallError) :
    Prop :=
  ∃ k l y v, x = .badLiteral k l.pos y ∧ c ≤ l ∧ l.peek? = some k.opening ∧
    Json.decode (Span.scan k mode l.rest).text = .error y ∧
    Json.decode (Span.scan k mode (l.rest ++ r)).text = .ok v ∧
    spanEvent mode k l ∈ es ∧ spanEvent mode k (l.extend r) ∈ es'

theorem IsMended.within (h : IsMended mode e r es es' x) (hc : c ≤ e) (hes : es ⊆ es₁)
    (hes' : es' ⊆ es₁') : IsMended mode c r es₁ es₁' x := by
  obtain ⟨k, l, y, v, hx, hl, hk, hy, hv, hmem, hmem'⟩ := h
  exact ⟨k, l, y, v, hx, Cursor.le_trans hc hl, hk, hy, hv, hes hmem, hes' hmem'⟩

def CallMended (cfg : Config) (depth : Nat) (c : Cursor) (es : List Event) :
    Except CallError (Call × Cursor) → Prop
  | .error x => (∀ part n, x ≠ .missing part n) →
      ∀ ⦃r es' v g⦄, ReadsCall cfg depth (c.extend r) es' (.ok (v, g)) →
        IsMended cfg.quoting c r es es' x
  | .ok _ => True

def ListMended (cfg : Config) (depth : Nat) (c : Cursor) (es : List Event) :
    Except CallError (List Argument × Cursor) → Prop
  | .error x => (∀ part n, x ≠ .missing part n) →
      ∀ ⦃r es' args f⦄, ReadsList cfg depth (c.extend r) es' (.ok (args, f)) →
        IsMended cfg.quoting c r es es' x
  | .ok _ => True

def ArgumentMended (cfg : Config) (depth : Nat) (c : Cursor) (es : List Event) :
    Except CallError (Argument × Cursor) → Prop
  | .error x => (∀ part n, x ≠ .missing part n) →
      ∀ ⦃r es' a d⦄, ReadsArgument cfg depth (c.extend r) es' (.ok (a, d)) →
        IsMended cfg.quoting c r es es' x
  | .ok _ => True

theorem callMended_tooDeep (hd : cfg.maxDepth < depth) : CallMended cfg depth c es (.error x) := by
  intro _ r es' v g h
  cases h with
  | call hd' => exact absurd hd' (Nat.not_le.mpr hd)

theorem callMended_badArguments (ho : Opens c b e) (hl : ListMended cfg depth e es (.error x)) :
    CallMended cfg depth c (.nameRead b.name depth b.pos :: es) (.error x) := by
  intro hx r es' v g h
  obtain ⟨b', ho'⟩ := ho.extend r
  cases h with
  | call _ ho'' hl' _ =>
      obtain rfl := ho'.unique ho''
      exact (hl hx hl').within ho.le (List.subset_cons_self _ _) (List.subset_cons_self _ _)

theorem rest_ne_nil_of_readsArgument (h : ReadsArgument cfg depth c es (.error x)) :
    c.rest ≠ [] := by
  cases h with
  | badCall hs _ => exact rest_ne_nil_of_peek? hs
  | badLiteral hk _ => exact rest_ne_nil_of_peek? hk

theorem listMended_badFirst (hne : c.skipSpace.rest ≠ [])
    (ha : ArgumentMended cfg depth c.skipSpace es (.error x)) :
    ListMended cfg depth c es (.error x) := by
  intro hx r es' args f h
  cases h with
  | last ha' _ =>
      rw [Cursor.skipSpace_extend hne] at ha'
      exact (ha hx ha').within c.le_skipSpace (List.Subset.refl _) (List.Subset.refl _)
  | more ha' _ _ =>
      rw [Cursor.skipSpace_extend hne] at ha'
      exact (ha hx ha').within c.le_skipSpace (List.Subset.refl _) (List.subset_append_left _ _)

theorem listMended_badRest (hd : depth ≤ cfg.maxDepth)
    (ha : ReadsArgument cfg depth c.skipSpace es (.ok (a, d))) (he : d.skipSpace.Passes [','] e)
    (hl : ListMended cfg depth e es' (.error x)) :
    ListMended cfg depth c (es ++ es') (.error x) := by
  intro hx r es₁ args f h
  obtain ⟨es₂, d', ha', he'⟩ := exists_readsArgument_extend hd ha he r
  cases h with
  | last ha'' hs =>
      cases ha'.unique ha''
      exact absurd (he'.peek?_eq_some rfl) hs
  | more ha'' he'' hl' =>
      cases ha'.unique ha''
      obtain rfl := he'.unique he''
      exact (hl hx hl').within (le_of_comma ha he) (List.subset_append_right _ _)
        (List.subset_append_right _ _)

theorem argumentMended_badCall (hs : c.peek? = some '$')
    (hc : CallMended cfg (depth + 1) c es (.error x)) :
    ArgumentMended cfg depth c es (.error x) := by
  intro hx r es' a d h
  obtain ⟨v, hv⟩ := exists_readsCall_of_peek? (Cursor.peek?_extend hs r) h
  exact hc hx hv

theorem argumentMended_badLiteral {y : Json.DecodeError} (hk : c.peek? = some k.opening)
    (hy : Json.decode (Span.scan k cfg.quoting c.rest).text = .error y) :
    ArgumentMended cfg depth c [spanEvent cfg.quoting k c] (.error (.badLiteral k c.pos y)) := by
  intro _ r es' a d h
  obtain ⟨-, rfl, v, hv⟩ := exists_decode_of_peek? (Cursor.peek?_extend hk r) h
  exact ⟨k, c, y, v, rfl, c.le_refl, hk, hy, hv, List.mem_singleton_self _,
    List.mem_singleton_self _⟩

mutual

/-- Only a literal that is cut off can be mended. A call that is too deep stays so. -/
theorem callMended_of_reads {cfg : Config} {depth : Nat} {c : Cursor} {es : List Event}
    {o : Except CallError (Call × Cursor)} (h : ReadsCall cfg depth c es o) :
    CallMended cfg depth c es o := by
  match h with
  | .tooDeep hd => exact callMended_tooDeep hd
  | .noSigil _ _ | .noOpening _ _ _ | .noClosing _ _ _ _ => exact fun hx => absurd rfl (hx _ _)
  | .badArguments hd ho hl => exact callMended_badArguments ho (listMended_of_reads hl hd)
  | .call _ _ _ _ => trivial

theorem listMended_of_reads {cfg : Config} {depth : Nat} {c : Cursor} {es : List Event}
    {o : Except CallError (List Argument × Cursor)} (h : ReadsList cfg depth c es o)
    (hd : depth ≤ cfg.maxDepth) : ListMended cfg depth c es o := by
  match h with
  | .badFirst ha =>
      exact listMended_badFirst (rest_ne_nil_of_readsArgument ha) (argumentMended_of_reads ha)
  | .badRest ha he hl => exact listMended_badRest hd ha he (listMended_of_reads hl hd)
  | .last _ _ | .more _ _ _ => trivial

theorem argumentMended_of_reads {cfg : Config} {depth : Nat} {c : Cursor} {es : List Event}
    {o : Except CallError (Argument × Cursor)} (h : ReadsArgument cfg depth c es o) :
    ArgumentMended cfg depth c es o := by
  match h with
  | .badCall hs hc => exact argumentMended_badCall hs (callMended_of_reads hc)
  | .badLiteral hk hy => exact argumentMended_badLiteral hk hy
  | .call _ _ | .literal _ _ _ | .raw _ => trivial

end

variable {v : Call} {n : Nat} {p : List Char}

/-- A part that is missing before the end of a text is missing however the text goes on. -/
theorem offset_eq_of_missing {part : Part} {m : Nat} (h : (cfg.run (p ++ r)).result = .ok (v, n))
    (hx : (cfg.run p).result = .error (.missing part m)) : m = byteLength p := by
  apply Nat.le_antisymm
  · obtain ⟨es, hread⟩ := run_eq_error_iff_reads.mp hx
    obtain ⟨d, hle, hd⟩ := (ahead_of_readsCall hread).mono (Cursor.le_skipSpace _)
    have hpos := Cursor.pos_add_rest hle
    rw [hd, CallError.offset] at hpos
    omega
  · apply Nat.le_of_not_lt
    intro hlt
    obtain ⟨q, y, -, ⟨w, rfl⟩, htail⟩ := exists_run_eq_error hx rfl hlt
    have hlong := htail (w ++ r)
    simp only [List.append_assoc, List.cons_append, List.nil_append] at h
    rw [h] at hlong
    cases hlong

/-- A literal that is mended starts in the text that is cut off and ends after it. -/
theorem IsMended.exists_events (h : IsMended mode (.start p) r es es' x)
    (hes' : ∀ k m n, .spanScanned k m n false ∉ es') :
    ∃ k i j y, x = .badLiteral k i y ∧ i < byteLength p ∧ byteLength p < j ∧
      .spanScanned k i j true ∈ es' ∧ .spanScanned k i (byteLength p) false ∈ es := by
  obtain ⟨k, l, y, w, rfl, hle, hk, hy, hw, hmem, hmem'⟩ := h
  have hclosed : (Span.scan k mode (l.rest ++ r)).closed = true := by
    cases hc : (Span.scan k mode (l.rest ++ r)).closed with
    | true => rfl
    | false =>
        rw [spanEvent, Cursor.extend, hc] at hmem'
        exact absurd hmem' (hes' _ _ _)
  have hne : (Span.scan k mode l.rest).text ≠ (Span.scan k mode (l.rest ++ r)).text := by
    intro heq
    rw [heq, hw] at hy
    cases hy
  obtain ⟨hopen, hlt⟩ := runsOut_of_text_ne hk hclosed hne
  have hdangles : Dangles mode k l := ⟨hk, hopen⟩
  have hend : l.pos + byteLength l.rest = byteLength p := Cursor.pos_add_rest hle
  have hstart : 0 < byteLength l.rest := byteLength_pos (rest_ne_nil_of_peek? hk)
  rw [spanEvent, Cursor.extend, hclosed] at hmem'
  rw [spanEvent, hopen, hdangles.skipSpan_eq, Cursor.finish, hend] at hmem
  refine ⟨k, l.pos, _, y, rfl, by omega, ?_, hmem', hmem⟩
  simp only [Cursor.skipSpan]
  omega

theorem mem_trace_of_mem {text : String} {o : Except CallError (Call × Cursor)} {e : Event}
    (h : ReadsCall cfg 1 (.start text.toList) es o) (hmem : e ∈ es) : e ∈ cfg.trace text := by
  rw [Config.trace, events_run_of_reads h]
  exact List.mem_append_left _ hmem

/-- A text that is cut off within its call fails there. What is reported is a part that is missing at
the cut, or a literal that starts before the cut, is closed after it, and was scanned up to it. -/
theorem leadingCall_of_truncated (cfg : Config) {text : String} {v : Call} {n m : Nat}
    {p : List Char} (h : cfg.leadingCall text = .ok (v, n)) (hp : takeBytes? text.toList m = some p)
    (hm : m < n) :
    (∃ part, cfg.leadingCall (.ofList p) = .error (.missing part m)) ∨
      ∃ k i j y, cfg.leadingCall (.ofList p) = .error (.badLiteral k i y) ∧ i < m ∧ m < j ∧
        .spanScanned k i j true ∈ cfg.trace text ∧
        .spanScanned k i m false ∈ cfg.trace (.ofList p) := by
  obtain ⟨r, hs, rfl⟩ := takeBytes?_eq_some_iff.mp hp
  rw [leadingCall_ofList]
  obtain ⟨es', g, hlong, -⟩ := run_eq_ok_iff_reads.mp h
  rw [Config.leadingCall, hs] at h
  obtain ⟨x, hx⟩ := exists_error_of_lt h hm
  obtain ⟨es, hread⟩ := run_eq_error_iff_reads.mp hx
  by_cases hpart : ∃ part i, x = .missing part i
  · obtain ⟨part, i, rfl⟩ := hpart
    rw [offset_eq_of_missing h hx] at hx
    exact .inl ⟨part, hx⟩
  · have hextend : Cursor.start text.toList = (Cursor.start p).extend r := by rw [hs]; rfl
    have hmended := callMended_of_reads hread (fun part i hx => hpart ⟨part, i, hx⟩) (hextend ▸ hlong)
    obtain ⟨k, i, j, y, rfl, hi, hj, hmem', hmem⟩ := hmended.exists_events (closed_of_readsCall hlong)
    have hshort : ReadsCall cfg 1 (.start (String.ofList p).toList) es (.error (.badLiteral k i y)) := by
      rwa [String.toList_ofList]
    exact .inr ⟨k, i, j, y, hx, hi, hj, mem_trace_of_mem hlong hmem', mem_trace_of_mem hshort hmem⟩

/-- Cut in the name of the second call, and in the string of a literal. -/
theorem leadingCall_of_truncated_nested :
    let cfg : Config := ⟨2, .naive⟩
    let text := "$f($g(), [\"]\"])"
    cfg.leadingCall text = .ok (⟨"f", [.call "g" [.raw ""], .array [.string "]"]]⟩, 15) ∧
      (takeBytes? text.toList 5 = some "$f($g".toList ∧
        ∃ part, cfg.leadingCall "$f($g" = .error (.missing part 5)) ∧
      takeBytes? text.toList 12 = some "$f($g(), [\"]".toList ∧
      ∃ k i j y, cfg.leadingCall "$f($g(), [\"]" = .error (.badLiteral k i y) ∧ i < 12 ∧ 12 < j ∧
        .spanScanned k i j true ∈ cfg.trace text ∧
        .spanScanned k i 12 false ∈ cfg.trace "$f($g(), [\"]" := by
  intro cfg text
  have h : cfg.leadingCall text =
      .ok (⟨"f", [.call "g" [.raw ""], .array [.string "]"]]⟩, 15) := by
    dsimp only [cfg, text]
    with_unfolding_all rfl
  have hname : takeBytes? text.toList 5 = some "$f($g".toList := by decide
  have hstring : takeBytes? text.toList 12 = some "$f($g(), [\"]".toList := by decide
  refine ⟨h, ⟨hname, ?_⟩, hstring, ?_⟩
  · have hx : cfg.leadingCall "$f($g" = .error (.missing .opening 5) := by
      dsimp only [cfg]
      with_unfolding_all rfl
    obtain hpart | ⟨k, i, j, y, hy, -⟩ := leadingCall_of_truncated cfg h hname (by decide)
    · exact hpart
    · rw [String.ofList_toList, hx] at hy
      cases hy
  · have hx : cfg.leadingCall "$f($g(), [\"]" = .error (.badLiteral .array 9 ⟨.eofString, 1, 3⟩) := by
      dsimp only [cfg]
      with_unfolding_all rfl
    obtain ⟨part, hpart⟩ | hliteral := leadingCall_of_truncated cfg h hstring (by decide)
    · rw [String.ofList_toList, hx] at hpart
      cases hpart
    · exact hliteral

end SigilCall
