import SigilCall.Proofs.Call.Locality
import SigilCall.Proofs.Call.Unclosed

namespace SigilCall

open Text Literal

def IsCallText (cfg : Config) (depth : Nat) (s : List Char) : Prop :=
  ∃ u t v, s = u ++ t ∧ IsSpaces u ∧ Derives cfg.quoting t v ∧ v.depth + depth ≤ cfg.maxDepth + 1

def IsListText (cfg : Config) (depth : Nat) (s : List Char) : Prop :=
  ∃ args, DerivesList cfg.quoting s args ∧ Argument.depthList args + depth ≤ cfg.maxDepth

def IsArgumentText (cfg : Config) (depth : Nat) (s : List Char) : Prop :=
  ∃ a, DerivesArgument cfg.quoting s a ∧ a.depth + depth ≤ cfg.maxDepth

variable {α : Type} {cfg : Config} {mode : Quoting} {depth : Nat} {c d b e f : Cursor} {a : Argument}
  {args : List Argument} {es es' : List Event} {x : CallError} {s t u w name tail : List Char}
  {L L' : List Char → Prop}

theorem isArgumentText_nil (hd : depth ≤ cfg.maxDepth) : IsArgumentText cfg depth [] := by
  have hraw : IsRaw [] := by
    refine ⟨?_, ?_⟩ <;> intro y hy <;> cases hy
  exact ⟨_, .raw hraw, by simpa⟩

theorem isArgumentText_append (hu : IsSpaces u) (h : IsArgumentText cfg depth s) (hw : IsSpaces w) :
    IsArgumentText cfg depth (u ++ (s ++ w)) := by
  obtain ⟨a, h, hd⟩ := h
  exact ⟨a, derivesArgument_append hu h hw, hd⟩

theorem isArgumentText_call (h : IsCallText cfg (depth + 1) s) : IsArgumentText cfg depth s := by
  obtain ⟨u, t, v, rfl, hu, ht, hd⟩ := h
  have harg := DerivesArgument.call hu ht isSpaces_nil
  rw [List.append_nil] at harg
  exact ⟨_, harg, by rw [Call.depth_toArgument]; omega⟩

theorem isListText_one (h : IsArgumentText cfg depth s) : IsListText cfg depth s := by
  obtain ⟨a, h, hd⟩ := h
  exact ⟨[a], .one h, by simpa⟩

theorem isListText_more (h : IsArgumentText cfg depth s) (hl : IsListText cfg depth t) :
    IsListText cfg depth (s ++ ',' :: t) := by
  obtain ⟨a, h, hd⟩ := h
  obtain ⟨args, hl, hd'⟩ := hl
  exact ⟨a :: args, .more h hl, by rw [Argument.depthList_cons]; omega⟩

theorem isCallText_call (hu : IsSpaces u) (hn : IsName name) (hw : IsSpaces w)
    (hl : IsListText cfg depth t) :
    IsCallText cfg depth (u ++ '$' :: (name ++ (w ++ '(' :: (t ++ [')'])))) := by
  obtain ⟨args, hl, hd⟩ := hl
  refine ⟨u, _, _, rfl, hu, .call hn hw hl, ?_⟩
  rw [Call.depth_mk]
  omega

def Spells (L : List Char → Prop) (c d : Cursor) : Prop := ∃ t, c.Passes t d ∧ L t

def RunsToEnd (mode : Quoting) (es : List Event) (d : Cursor) : Prop :=
  mode = .naive ∧ d.rest = [] ∧ EndsUnclosed es

theorem spells_or_runsToEnd_of_literal {k : Kind} {v : Json} (hd : depth ≤ cfg.maxDepth)
    (hk : c.peek? = some k.opening)
    (hv : Json.decode (Span.scan k cfg.quoting c.rest).text = .ok v)
    (ha : Argument.ofJson? v = some a) :
    Spells (IsArgumentText cfg depth) c (c.skipSpan k cfg.quoting) ∨
      RunsToEnd cfg.quoting [spanEvent cfg.quoting k c] (c.skipSpan k cfg.quoting) := by
  cases hclosed : (Span.scan k cfg.quoting c.rest).closed with
  | true =>
      have hliteral := isLiteral_of_closed hk hclosed
      have harg := DerivesArgument.literal isSpaces_nil hliteral hv ha isSpaces_nil
      rw [List.append_nil, List.nil_append] at harg
      exact .inl ⟨_, c.passes_skipSpan k cfg.quoting, a, harg,
        by rwa [depth_of_ofJson? ha, Nat.zero_add]⟩
  | false =>
      refine .inr ⟨?_, Span.rest_eq_nil_of_closed hclosed, endsUnclosed_spanEvent hclosed⟩
      cases hm : cfg.quoting with
      | naive => rfl
      | escaped =>
          rw [hm] at hv hclosed
          obtain ⟨s, b, -, -, -, hscan⟩ := exists_scan_of_decode hk hv
          rw [hscan] at hclosed
          cases hclosed

theorem spells_or_runsToEnd_of_readsArgument (hd : depth ≤ cfg.maxDepth) (hs : Halts isSpace c.rest)
    (h : ReadsArgument cfg depth c es (.ok (a, d))) :
    Spells (IsArgumentText cfg depth) c d ∨ RunsToEnd cfg.quoting es d := by
  cases h with
  | call _ hc =>
      obtain ⟨u, t, hp, hu, ht, hdepth⟩ := callSound_of_reads hc _ _ rfl
      exact .inl ⟨u ++ t, hp, isArgumentText_call ⟨u, t, _, rfl, hu, ht, hdepth⟩⟩
  | literal hk hv ha => exact spells_or_runsToEnd_of_literal hd hk hv ha
  | raw hp =>
      exact .inl ⟨_, c.passes_skipWhile Cursor.isRawChar, _, .raw (isRaw_of_isPlain hp hs),
        by simpa⟩

theorem spells_of_readsArgument (hd : depth ≤ cfg.maxDepth)
    (h : ReadsArgument cfg depth c.skipSpace es (.ok (a, d))) (he : d.skipSpace.Passes [','] e) :
    Spells (IsArgumentText cfg depth) c d.skipSpace := by
  have hne := Cursor.rest_ne_nil_of_skipSpace (Cursor.rest_ne_nil_of_passes he)
  obtain ⟨t, ht, hderives, hdepth⟩ := (argumentSound_of_reads h).exists_derives hd hne
  exact ⟨t, ht, a, hderives, hdepth⟩

theorem spells_or_runsToEnd_of_readsList {cfg : Config} {depth : Nat} {c f : Cursor} {es : List Event}
    {args : List Argument} (hd : depth ≤ cfg.maxDepth)
    (h : ReadsList cfg depth c es (.ok (args, f))) :
    f.skipSpace = f ∧ (Spells (IsListText cfg depth) c f ∨ RunsToEnd cfg.quoting es f) := by
  match h with
  | @ReadsList.last _ _ _ d _ _ ha _ =>
      refine ⟨Cursor.skipSpace_skipSpace d, ?_⟩
      obtain ⟨u, hu, hu'⟩ := c.passes_skipSpace
      obtain ⟨w, hw, hw'⟩ := d.passes_skipSpace
      rcases spells_or_runsToEnd_of_readsArgument hd (Cursor.halts_skipWhile isSpace c) ha with
        ⟨t, ht, harg⟩ | ⟨hm, hrest, hends⟩
      · exact .inl ⟨_, hu.trans (ht.trans hw), isListText_one (isArgumentText_append hu' harg hw')⟩
      · exact .inr ⟨hm, Cursor.rest_skipSpace_eq_nil hrest, hends⟩
  | .more ha he hl =>
      obtain ⟨s, hs, harg⟩ := spells_of_readsArgument hd ha he
      obtain ⟨hskip, ⟨t, ht, hlist⟩ | ⟨hm, hrest, hends⟩⟩ := spells_or_runsToEnd_of_readsList hd hl
      · exact ⟨hskip, .inl ⟨_, hs.trans (he.trans ht), isListText_more harg hlist⟩⟩
      · exact ⟨hskip, .inr ⟨hm, hrest, hends.append _⟩⟩

def Viable (L : List Char → Prop) (c : Cursor) (x : CallError) : Prop :=
  ∃ p d tail, c.Passes p d ∧ d.pos = x.offset ∧ L (p ++ tail)

theorem Viable.within (h : Viable L e x) (hp : c.Passes s e) (w : List Char)
    (hL : ∀ t, L t → L' (s ++ (t ++ w))) : Viable L' c x := by
  obtain ⟨p, d, tail, hp', hd, hL'⟩ := h
  refine ⟨s ++ p, d, tail ++ w, hp.trans hp', hd, ?_⟩
  have := hL _ hL'
  simpa only [List.append_assoc] using this

def CutShort (mode : Quoting) (c : Cursor) (es : List Event) (x : CallError) : Prop :=
  ∃ d, c ≤ d ∧ RunsToEnd mode es d ∧ x = .missing .closing d.pos

theorem CutShort.within (h : CutShort mode e es' x) (hc : c ≤ e) (es : List Event) :
    CutShort mode c (es ++ es') x := by
  obtain ⟨d, hd, ⟨hm, hrest, hends⟩, hx⟩ := h
  exact ⟨d, Cursor.le_trans hc hd, ⟨hm, hrest, hends.append es⟩, hx⟩

def FailsViably (mode : Quoting) (L : List Char → Prop) (c : Cursor) (es : List Event) :
    Except CallError (α × Cursor) → Prop
  | .error x => Viable L c x ∨ CutShort mode c es x
  | .ok _ => True

def CallViable (cfg : Config) (depth : Nat) (c : Cursor) (es : List Event)
    (o : Except CallError (Call × Cursor)) : Prop :=
  FailsViably cfg.quoting (IsCallText cfg depth) c es o

def ListViable (cfg : Config) (depth : Nat) (c : Cursor) (es : List Event)
    (o : Except CallError (List Argument × Cursor)) : Prop :=
  FailsViably cfg.quoting (IsListText cfg depth) c es o

def ArgumentViable (cfg : Config) (depth : Nat) (c : Cursor) (es : List Event)
    (o : Except CallError (Argument × Cursor)) : Prop :=
  FailsViably cfg.quoting (IsArgumentText cfg depth) c es o

theorem isListText_nil (hd : depth ≤ cfg.maxDepth) : IsListText cfg depth [] :=
  isListText_one (isArgumentText_nil hd)

theorem callViable_noSigil (hd : depth ≤ cfg.maxDepth) :
    CallViable cfg depth c [] (.error (.missing .sigil c.skipSpace.pos)) := by
  obtain ⟨u, hp, hu⟩ := c.passes_skipSpace
  have htext := isCallText_call hu isName_nil isSpaces_nil (isListText_nil hd)
  exact .inl ⟨u, _, _, hp, rfl, htext⟩

theorem callViable_noOpening (hd : depth ≤ cfg.maxDepth) (hb : c.skipSpace.Passes ['$'] b) :
    CallViable cfg depth c es (.error (.missing .opening b.skipName.pos)) := by
  obtain ⟨u, name, w, hp, hu, hn, hw, -⟩ := Cursor.exists_passes_skipName hb
  have htext := isCallText_call hu hn hw (isListText_nil hd)
  refine .inl ⟨_, _, ['(', ')'], hp, rfl, ?_⟩
  simpa only [List.append_assoc, List.cons_append, List.nil_append] using htext

/-- What starts with an opening and ends with a list is made a call by a closing parenthesis. -/
theorem exists_isCallText (cfg : Config) (depth : Nat) (ho : Opens c b e) :
    ∃ s, c.Passes s e ∧
      ∀ t, IsListText cfg depth t → IsCallText cfg depth (s ++ (t ++ [')'])) := by
  obtain ⟨u, name, w, hp, hu, hn, hw, -⟩ := Cursor.exists_passes_of_opens ho
  refine ⟨_, hp, fun t ht => ?_⟩
  simpa only [List.append_assoc, List.cons_append, List.nil_append] using
    isCallText_call hu hn hw ht

theorem callViable_badArguments (ho : Opens c b e) (hl : ListViable cfg depth e es (.error x)) :
    CallViable cfg depth c (.nameRead b.name depth b.pos :: es) (.error x) := by
  obtain ⟨s, hp, hclose⟩ := exists_isCallText cfg depth ho
  rcases hl with hl | hl
  · exact .inl (hl.within hp [')'] hclose)
  · exact .inr (hl.within ho.le [_])

theorem callViable_noClosing (hd : depth ≤ cfg.maxDepth) (ho : Opens c b e)
    (hl : ReadsList cfg depth e es (.ok (args, f))) :
    CallViable cfg depth c (.nameRead b.name depth b.pos :: es)
      (.error (.missing .closing f.skipSpace.pos)) := by
  obtain ⟨s, hp, hclose⟩ := exists_isCallText cfg depth ho
  obtain ⟨hskip, ⟨t, ht, hlist⟩ | hends⟩ := spells_or_runsToEnd_of_readsList hd hl
  · refine .inl ⟨s ++ t, f, [')'], hp.trans ht, by rw [hskip]; rfl, ?_⟩
    rw [List.append_assoc]
    exact hclose t hlist
  · rw [hskip]
    have hcut : CutShort cfg.quoting e es (.missing .closing f.pos) :=
      ⟨f, ahead_of_readsList hl, hends, rfl⟩
    exact .inr (hcut.within ho.le [_])

theorem listViable_badFirst (ha : ArgumentViable cfg depth c.skipSpace es (.error x)) :
    ListViable cfg depth c es (.error x) := by
  obtain ⟨u, hp, hu⟩ := c.passes_skipSpace
  rcases ha with ha | ha
  · refine .inl (ha.within hp [] fun t ht => ?_)
    exact isListText_one (isArgumentText_append hu ht isSpaces_nil)
  · exact .inr (ha.within c.le_skipSpace [])

theorem listViable_badRest (hd : depth ≤ cfg.maxDepth)
    (ha : ReadsArgument cfg depth c.skipSpace es (.ok (a, d))) (he : d.skipSpace.Passes [','] e)
    (hl : ListViable cfg depth e es' (.error x)) : ListViable cfg depth c (es ++ es') (.error x) := by
  obtain ⟨s, hs, harg⟩ := spells_of_readsArgument hd ha he
  have hp := hs.trans he
  rcases hl with hl | hl
  · refine .inl (hl.within hp [] fun t ht => ?_)
    rw [List.append_nil, List.append_assoc]
    exact isListText_more harg ht
  · exact .inr (hl.within hp.le es)

theorem argumentViable_here (hd : depth ≤ cfg.maxDepth) (hx : c.pos = x.offset) :
    ArgumentViable cfg depth c es (.error x) :=
  .inl ⟨[], c, [], c.passes_nil, hx, isArgumentText_nil hd⟩

theorem argumentViable_badCall (hc : CallViable cfg (depth + 1) c es (.error x)) :
    ArgumentViable cfg depth c es (.error x) := by
  rcases hc with hc | hc
  · refine .inl (hc.within c.passes_nil [] fun t ht => ?_)
    rw [List.append_nil]
    exact isArgumentText_call ht
  · exact .inr hc

/-- A call just below the limit is no text of the grammar, but an empty argument is one. -/
theorem argumentViable_tooDeep (hd : depth ≤ cfg.maxDepth) (hs : c.peek? = some '$')
    (hlimit : cfg.maxDepth < depth + 1) (h : ReadsCall cfg (depth + 1) c es (.error x)) :
    ArgumentViable cfg depth c es (.error x) := by
  have hskip : c.skipSpace = c := skipSpace_of_peek? hs rfl
  obtain ⟨rfl, hx⟩ := h.eq_of_lt hlimit
  cases hx
  exact argumentViable_here hd (congrArg Cursor.pos hskip).symm

mutual

/-- What is read before an error starts a text of the grammar, unless a literal in it has run to the
end of the text. -/
theorem callViable_of_reads {cfg : Config} {depth : Nat} {c : Cursor} {es : List Event}
    {o : Except CallError (Call × Cursor)} (h : ReadsCall cfg depth c es o)
    (hd : depth ≤ cfg.maxDepth) : CallViable cfg depth c es o := by
  match h with
  | .tooDeep hd' => exact absurd hd (Nat.not_le.mpr hd')
  | .noSigil _ _ => exact callViable_noSigil hd
  | .noOpening _ hb _ => exact callViable_noOpening hd hb
  | .badArguments _ ho hl => exact callViable_badArguments ho (listViable_of_reads hl hd)
  | .noClosing _ ho hl _ => exact callViable_noClosing hd ho hl
  | .call _ _ _ _ => trivial

theorem listViable_of_reads {cfg : Config} {depth : Nat} {c : Cursor} {es : List Event}
    {o : Except CallError (List Argument × Cursor)} (h : ReadsList cfg depth c es o)
    (hd : depth ≤ cfg.maxDepth) : ListViable cfg depth c es o := by
  match h with
  | .badFirst ha => exact listViable_badFirst (argumentViable_of_reads ha hd)
  | .badRest ha he hl => exact listViable_badRest hd ha he (listViable_of_reads hl hd)
  | .last _ _ | .more _ _ _ => trivial

theorem argumentViable_of_reads {cfg : Config} {depth : Nat} {c : Cursor} {es : List Event}
    {o : Except CallError (Argument × Cursor)} (h : ReadsArgument cfg depth c es o)
    (hd : depth ≤ cfg.maxDepth) : ArgumentViable cfg depth c es o := by
  match h with
  | .badCall hs hc =>
      by_cases hlimit : depth + 1 ≤ cfg.maxDepth
      · exact argumentViable_badCall (callViable_of_reads hc hlimit)
      · exact argumentViable_tooDeep hd hs (Nat.lt_of_not_le hlimit) hc
  | .badLiteral _ _ => exact argumentViable_here hd rfl
  | .call _ _ | .literal _ _ _ | .raw _ => trivial

end

def Config.Completes (cfg : Config) (p : List Char) : Prop :=
  ∃ tail v, cfg.leadingCall (.ofList (p ++ tail)) = .ok (v, byteLength (p ++ tail))

/-- In naive mode, a closing parenthesis is missed at the end of a text of which the last literal is
not closed. -/
def Config.EndsInLiteral (cfg : Config) (text : String) (x : CallError) : Prop :=
  cfg.quoting = .naive ∧ x = .missing .closing (byteLength text.toList) ∧
    EndsUnclosed (cfg.trace text)

theorem trace_of_reads {text : String} (h : ReadsCall cfg 1 (.start text.toList) es (.error x)) :
    cfg.trace text = es ++ [.failed x] := events_run_of_reads h

@[simp] theorem endsUnclosed_append_failed : EndsUnclosed (es ++ [.failed x]) ↔ EndsUnclosed es := by
  rw [EndsUnclosed, EndsUnclosed, List.filter_append]
  simp [Event.isSpan]

theorem exists_completes_of_viable (h : Viable (IsCallText cfg 1) (.start s) x) :
    ∃ p, takeBytes? s x.offset = some p ∧ cfg.Completes p := by
  obtain ⟨p, d, tail, hp, hx, u, t, v, htext, hu, ht, hd⟩ := h
  refine ⟨p, hx ▸ Cursor.takeBytes?_of_passes hp, tail, v, ?_⟩
  rw [leadingCall_ofList, htext]
  exact run_eq_ok_iff_derives.mpr
    ⟨u, t, [], (List.append_nil _).symm, rfl, hu, ht, Nat.le_of_succ_le_succ hd⟩

theorem not_completes_of_endsInLiteral {text : String} (h : cfg.leadingCall text = .error x)
    (hends : cfg.EndsInLiteral text x) : ¬ cfg.Completes text.toList := by
  obtain ⟨-, rfl, hunclosed⟩ := hends
  obtain ⟨es, hread⟩ := run_eq_error_iff_reads.mp h
  rw [trace_of_reads hread, endsUnclosed_append_failed] at hunclosed
  rintro ⟨tail, v, hv⟩
  rw [leadingCall_ofList] at hv
  obtain ⟨es', g, hread', -⟩ := run_eq_ok_iff_reads.mp hv
  exact callRunsOut_of_reads hread rfl hunclosed.any hread'

theorem endsInLiteral_of_cutShort {text : String}
    (h : ReadsCall cfg 1 (.start text.toList) es (.error x))
    (hcut : CutShort cfg.quoting (.start text.toList) es x) : cfg.EndsInLiteral text x := by
  obtain ⟨d, ⟨t, hp⟩, ⟨hmode, hrest, hunclosed⟩, rfl⟩ := hcut
  obtain ⟨htext, hpos⟩ := Cursor.eq_of_passes_start hp
  rw [hrest, List.append_nil] at htext
  refine ⟨hmode, by rw [htext, hpos], ?_⟩
  rw [trace_of_reads h]
  exact endsUnclosed_append_failed.mpr hunclosed

/-- The text before an error starts a text that is read as a call to its end. The one exception is
naive mode at the end of a text of which the last literal is not closed, and there is no such text
then. -/
theorem completes_iff_of_leadingCall_error {cfg : Config} (hm : 1 ≤ cfg.maxDepth) {text : String}
    {x : CallError} (h : cfg.leadingCall text = .error x) :
    ∃ p, takeBytes? text.toList x.offset = some p ∧
      (cfg.Completes p ↔ ¬ cfg.EndsInLiteral text x) := by
  obtain ⟨es, hread⟩ := run_eq_error_iff_reads.mp h
  rcases callViable_of_reads hread hm with hviable | hcut
  · obtain ⟨p, hp, hcompletes⟩ := exists_completes_of_viable hviable
    refine ⟨p, hp, fun _ hends => ?_, fun _ => hcompletes⟩
    have hnot := not_completes_of_endsInLiteral h hends
    rw [hends.2.1, CallError.offset, takeBytes?_length] at hp
    cases hp
    exact hnot hcompletes
  · have hends := endsInLiteral_of_cutShort hread hcut
    refine ⟨text.toList, ?_, fun hcompletes => ?_, fun hnot => absurd hends hnot⟩
    · rw [hends.2.1, CallError.offset, takeBytes?_length]
    · exact absurd hcompletes (not_completes_of_endsInLiteral h hends)

/-- After the first text a closing parenthesis may follow. In the second one the escaped quotation
mark keeps the literal open in naive mode, whatever follows. -/
theorem completes_iff_of_leadingCall_error_mark :
    let cfg : Config := ⟨1, .naive⟩
    1 ≤ cfg.maxDepth ∧
      (cfg.leadingCall "$f([1] x)" = .error (.missing .closing 7) ∧ cfg.Completes "$f([1] ".toList) ∧
      cfg.leadingCall "$f([\"\\\"\"]" = .error (.missing .closing 9) ∧
      ¬ cfg.Completes "$f([\"\\\"\"]".toList := by
  intro cfg
  have hm : 1 ≤ cfg.maxDepth := Nat.le_refl 1
  have hx : cfg.leadingCall "$f([1] x)" = .error (.missing .closing 7) := by
    dsimp only [cfg]
    with_unfolding_all rfl
  have hy : cfg.leadingCall "$f([\"\\\"\"]" = .error (.missing .closing 9) := by
    dsimp only [cfg]
    with_unfolding_all rfl
  refine ⟨hm, ⟨hx, ?_⟩, hy, ?_⟩
  · obtain ⟨p, hp, hiff⟩ := completes_iff_of_leadingCall_error hm hx
    obtain rfl : "$f([1] ".toList = p := Option.some.inj hp
    refine hiff.mpr fun hends => ?_
    have hlength : CallError.missing .closing 7 = .missing .closing 9 := hends.2.1
    cases hlength
  · obtain ⟨p, hp, hiff⟩ := completes_iff_of_leadingCall_error hm hy
    obtain rfl : "$f([\"\\\"\"]".toList = p := Option.some.inj hp
    have hunclosed : EndsUnclosed (cfg.trace "$f([\"\\\"\"]") := by
      refine ⟨.array, 3, 9, ?_⟩
      dsimp only [cfg]
      with_unfolding_all rfl
    exact fun hcompletes => hiff.mp hcompletes ⟨rfl, rfl, hunclosed⟩

end SigilCall
