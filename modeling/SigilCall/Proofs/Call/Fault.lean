import SigilCall.Proofs.Call.Exactness
import SigilCall.Proofs.Call.Offsets
import SigilCall.Proofs.Call.Unclosed

namespace SigilCall

open Text Literal

/-- The text before a place where a call may stand, with the number of calls that are open there. If
none is, that is the start of a text. Inside a call it is the place of an argument. -/
inductive LeadsTo (mode : Quoting) : Nat → List Char → Prop
  | start {u : List Char} : IsSpaces u → LeadsTo mode 0 u
  | opening {level : Nat} {p name w u : List Char} : LeadsTo mode level p → IsName name →
      IsSpaces w → IsSpaces u →
      LeadsTo mode (level + 1) (p ++ '$' :: (name ++ (w ++ '(' :: u)))
  | comma {level : Nat} {p s u : List Char} {a : Argument} : 0 < level → LeadsTo mode level p →
      DerivesArgument mode s a → IsSpaces u → LeadsTo mode level (p ++ (s ++ ',' :: u))

inductive IsBracketed (mode : Quoting) (t : List Char) : Prop
  | call {v : Call} : Derives mode t v → t.getLast? = some ')' → IsBracketed mode t
  | literal {k : Kind} {j : Json} : IsLiteral k mode t → Json.decode t = .ok j →
      t.getLast? = some k.closing → IsBracketed mode t

/-- What a text is like at the place of an error: what is before it, in the calls that are open
there, and what comes next. -/
inductive Config.Faults (cfg : Config) (text : List Char) : CallError → Prop
  | noSigil {p s : List Char} : text = p ++ s → LeadsTo cfg.quoting 0 p → 0 < cfg.maxDepth →
      Halts isSpace s → s.head? ≠ some '$' → Faults cfg text (.missing .sigil (byteLength p))
  | noOpening {level : Nat} {p name w s : List Char} : text = (p ++ '$' :: (name ++ w)) ++ s →
      LeadsTo cfg.quoting level p → level < cfg.maxDepth → IsName name → IsSpaces w →
      Halts isSpace s → s.head? ≠ some '(' →
      Faults cfg text (.missing .opening (byteLength (p ++ '$' :: (name ++ w))))
  | atEnd : Faults cfg text (.missing .closing (byteLength text))
  | afterBracket {level : Nat} {p t w s : List Char} {y : Char} :
      text = (p ++ (t ++ w)) ++ y :: s → LeadsTo cfg.quoting level p → 0 < level →
      IsBracketed cfg.quoting t → IsSpaces w → isSpace y = false → y ≠ ',' → y ≠ ')' →
      Faults cfg text (.missing .closing (byteLength (p ++ (t ++ w))))
  | badLiteral {level : Nat} {p s : List Char} {k : Kind} {y : Json.DecodeError} : text = p ++ s →
      LeadsTo cfg.quoting level p → 0 < level → s.head? = some k.opening →
      Json.decode (Span.scan k cfg.quoting s).text = .error y →
      Faults cfg text (.badLiteral k (byteLength p) y)
  | tooDeep {p s : List Char} : text = p ++ s → LeadsTo cfg.quoting cfg.maxDepth p →
      Halts isSpace s → (cfg.maxDepth ≠ 0 → s.head? = some '$') →
      Faults cfg text (.tooDeep cfg.maxDepth (byteLength p))

def Inside (mode : Quoting) (text : List Char) (level : Nat) (c : Cursor) : Prop :=
  ∃ p, (Cursor.start text).Passes p c ∧ LeadsTo mode level p

inductive Breaks (cfg : Config) (level : Nat) (c : Cursor) : List Event → CallError → Prop
  | noOpening {b : Cursor} : level < cfg.maxDepth → c.Passes ['$'] b →
      b.skipName.peek? ≠ some '(' →
      Breaks cfg level c [.nameRead b.name (level + 1) b.pos] (.missing .opening b.skipName.pos)
  | noClosing {d : Cursor} {es : List Event} {a : Argument} : 0 < level →
      ReadsArgument cfg level c es (.ok (a, d)) → d.skipSpace.peek? ≠ some ',' →
      d.skipSpace.peek? ≠ some ')' →
      Breaks cfg level c es (.missing .closing d.skipSpace.pos)
  | badLiteral {k : Kind} {y : Json.DecodeError} : 0 < level → c.peek? = some k.opening →
      Json.decode (Span.scan k cfg.quoting c.rest).text = .error y →
      Breaks cfg level c [spanEvent cfg.quoting k c] (.badLiteral k c.pos y)
  | tooDeep : level = cfg.maxDepth → c.peek? = some '$' →
      Breaks cfg level c [] (.tooDeep cfg.maxDepth c.pos)

def BreaksIn (cfg : Config) (text : List Char) (es : List Event) (x : CallError) : Prop :=
  ∃ level c es₁ es₂, Inside cfg.quoting text level c ∧ es = es₁ ++ es₂ ∧ Breaks cfg level c es₂ x

variable {cfg : Config} {mode : Quoting} {text : List Char} {level depth : Nat}
  {c d b e f : Cursor} {a : Argument} {args : List Argument} {es es' : List Event} {x : CallError}
  {p v : List Char}

theorem leadsTo_append (h : LeadsTo mode level p) (hv : IsSpaces v) :
    LeadsTo mode level (p ++ v) := by
  cases h with
  | start hu => exact .start (isSpaces_append hu hv)
  | opening h hn hw hu =>
      have := LeadsTo.opening h hn hw (isSpaces_append hu hv)
      simpa only [List.append_assoc, List.cons_append] using this
  | comma hlevel h hs hu =>
      have := LeadsTo.comma hlevel h hs (isSpaces_append hu hv)
      simpa only [List.append_assoc, List.cons_append] using this

namespace Inside

theorem start (mode : Quoting) (text : List Char) : Inside mode text 0 (.start text) :=
  ⟨[], Cursor.passes_nil _, .start isSpaces_nil⟩

theorem skipSpace (h : Inside mode text level c) : Inside mode text level c.skipSpace := by
  obtain ⟨p, hp, h⟩ := h
  obtain ⟨u, hu, hu'⟩ := c.passes_skipSpace
  exact ⟨p ++ u, hp.trans hu, leadsTo_append h hu'⟩

theorem opens (h : Inside mode text level c) (ho : Opens c b e) :
    Inside mode text (level + 1) e := by
  obtain ⟨p, hp, h⟩ := h
  obtain ⟨u, name, w, hopen, hu, hn, hw, -⟩ := Cursor.exists_passes_of_opens ho
  refine ⟨_, hp.trans hopen, ?_⟩
  rw [← List.append_assoc]
  exact .opening (leadsTo_append h hu) hn hw isSpaces_nil

theorem comma (h : Inside cfg.quoting text depth c) (hlevel : 0 < depth) (hd : depth ≤ cfg.maxDepth)
    (ha : ReadsArgument cfg depth c.skipSpace es (.ok (a, d))) (he : d.skipSpace.Passes [','] e) :
    Inside cfg.quoting text depth e := by
  obtain ⟨p, hp, h⟩ := h
  have hne := Cursor.rest_ne_nil_of_skipSpace (Cursor.rest_ne_nil_of_passes he)
  obtain ⟨t, ht, hderives, -⟩ := (argumentSound_of_reads ha).exists_derives hd hne
  exact ⟨_, hp.trans (ht.trans he), .comma hlevel h hderives isSpaces_nil⟩

end Inside

theorem BreaksIn.append (h : BreaksIn cfg text es x) (es' : List Event) :
    BreaksIn cfg text (es' ++ es) x := by
  obtain ⟨level, c, es₁, es₂, hc, rfl, h⟩ := h
  exact ⟨level, c, es' ++ es₁, es₂, hc, (List.append_assoc _ _ _).symm, h⟩

theorem breaksIn_here (hc : Inside cfg.quoting text level c) (h : Breaks cfg level c es x) :
    BreaksIn cfg text es x :=
  ⟨level, c, [], es, hc, rfl, h⟩

/-- Where a list of arguments ends, its last argument has been read. -/
theorem exists_last_of_readsList {cfg : Config} {text : List Char} {depth : Nat} {c f : Cursor}
    {es : List Event} {args : List Argument} (h : ReadsList cfg depth c es (.ok (args, f)))
    (hlevel : 0 < depth) (hd : depth ≤ cfg.maxDepth) (hc : Inside cfg.quoting text depth c) :
    ∃ c' d es₁ es₂ a, Inside cfg.quoting text depth c' ∧ es = es₁ ++ es₂ ∧
      ReadsArgument cfg depth c' es₂ (.ok (a, d)) ∧ f = d.skipSpace ∧
      d.skipSpace.peek? ≠ some ',' := by
  match h with
  | .last ha hs => exact ⟨_, _, [], es, _, hc.skipSpace, rfl, ha, rfl, hs⟩
  | @ReadsList.more _ _ _ _ _ _ es _ _ _ ha he hl =>
      obtain ⟨c', d, es₁, es₂, a, hc', rfl, h⟩ :=
        exists_last_of_readsList hl hlevel hd (hc.comma hlevel hd ha he)
      exact ⟨c', d, es ++ es₁, es₂, a, hc', (List.append_assoc _ _ _).symm, h⟩

theorem breaksIn_noClosing (hlevel : 0 < depth) (hd : depth ≤ cfg.maxDepth)
    (he : Inside cfg.quoting text depth e) (hl : ReadsList cfg depth e es (.ok (args, f)))
    (hs : f.skipSpace.peek? ≠ some ')') :
    BreaksIn cfg text es (.missing .closing f.skipSpace.pos) := by
  obtain ⟨c, d, es₁, es₂, a, hc, rfl, ha, rfl, hcomma⟩ :=
    exists_last_of_readsList hl hlevel hd he
  rw [Cursor.skipSpace_skipSpace] at hs ⊢
  exact (breaksIn_here hc (.noClosing hlevel ha hcomma hs)).append es₁

/-- A call just below the limit is not read. -/
theorem breaksIn_tooDeep (hc : Inside cfg.quoting text depth c) (hs : c.peek? = some '$')
    (hd : depth = cfg.maxDepth) (h : ReadsCall cfg (depth + 1) c es (.error x)) :
    BreaksIn cfg text es x := by
  have hskip : c.skipSpace = c := skipSpace_of_peek? hs rfl
  obtain ⟨rfl, hx⟩ := h.eq_of_lt (by omega)
  cases hx
  rw [hskip]
  exact breaksIn_here hc (.tooDeep hd hs)

def FailsInside {α : Type} (cfg : Config) (text : List Char) (es : List Event) :
    Except CallError (α × Cursor) → Prop
  | .error x => BreaksIn cfg text es x
  | .ok _ => True

mutual

/-- A reading that fails does so at one step, and nothing happens after it. -/
theorem failsInside_of_readsCall {cfg : Config} {text : List Char} {level depth : Nat} {c : Cursor}
    {es : List Event} {o : Except CallError (Call × Cursor)} (h : ReadsCall cfg depth c es o)
    (hlevel : depth = level + 1) (hd : level < cfg.maxDepth)
    (hc : Inside cfg.quoting text level c) (hs : c.skipSpace.peek? = some '$') :
    FailsInside cfg text es o := by
  match h with
  | .tooDeep hd' => exact absurd hd' (by omega)
  | .noSigil _ hs' => exact absurd hs hs'
  | .noOpening _ hb ho =>
      subst hlevel
      exact breaksIn_here hc.skipSpace (.noOpening hd hb ho)
  | .badArguments hd' ho hl =>
      have he : Inside cfg.quoting text depth _ := hlevel ▸ hc.opens ho
      exact (failsInside_of_readsList hl (by omega) hd' he).append [_]
  | .noClosing hd' ho hl hs' =>
      have he : Inside cfg.quoting text depth _ := hlevel ▸ hc.opens ho
      exact (breaksIn_noClosing (by omega) hd' he hl hs').append [_]
  | .call _ _ _ _ => trivial

theorem failsInside_of_readsList {cfg : Config} {text : List Char} {depth : Nat} {c : Cursor}
    {es : List Event} {o : Except CallError (List Argument × Cursor)}
    (h : ReadsList cfg depth c es o) (hlevel : 0 < depth) (hd : depth ≤ cfg.maxDepth)
    (hc : Inside cfg.quoting text depth c) : FailsInside cfg text es o := by
  match h with
  | .badFirst ha => exact failsInside_of_readsArgument ha hlevel hd hc.skipSpace
  | .badRest ha he hl =>
      exact (failsInside_of_readsList hl hlevel hd (hc.comma hlevel hd ha he)).append _
  | .last _ _ | .more _ _ _ => trivial

theorem failsInside_of_readsArgument {cfg : Config} {text : List Char} {depth : Nat} {c : Cursor}
    {es : List Event} {o : Except CallError (Argument × Cursor)}
    (h : ReadsArgument cfg depth c es o) (hlevel : 0 < depth) (hd : depth ≤ cfg.maxDepth)
    (hc : Inside cfg.quoting text depth c) : FailsInside cfg text es o := by
  match h with
  | .badCall hs hcall =>
      rcases Nat.lt_or_eq_of_le hd with hlt | heq
      · have hskip : c.skipSpace = c := skipSpace_of_peek? hs rfl
        exact failsInside_of_readsCall hcall rfl hlt hc (hskip.symm ▸ hs)
      · exact breaksIn_tooDeep hc hs heq hcall
  | .badLiteral hk hy => exact breaksIn_here hc (.badLiteral hlevel hk hy)
  | .call _ _ | .literal _ _ _ | .raw _ => trivial

end

theorem getLast?_of_derives {t : List Char} {v : Call} (h : Derives mode t v) :
    t.getLast? = some ')' := by
  cases h with
  | @call name u body _ hn hu hl =>
      have hend : '$' :: (name ++ (u ++ '(' :: (body ++ [')']))) =
          ('$' :: (name ++ (u ++ '(' :: body))) ++ [')'] := by simp
      rw [hend, List.getLast?_concat]

/-- A raw argument ends at a separator or at the end of the text, so a character that is neither
comes after one of the others. -/
theorem exists_isBracketed (h : ReadsArgument cfg depth c es (.ok (a, d)))
    (hne : d.skipSpace.rest ≠ []) (hcomma : d.skipSpace.peek? ≠ some ',')
    (hparen : d.skipSpace.peek? ≠ some ')') :
    ∃ u t, c.Passes (u ++ t) d ∧ IsSpaces u ∧ IsBracketed cfg.quoting t := by
  have hrest := Cursor.rest_ne_nil_of_skipSpace hne
  cases h with
  | call _ hcall =>
      obtain ⟨u, t, hp, hu, ht, -⟩ := callSound_of_reads hcall _ _ rfl
      exact ⟨u, t, hp, hu, .call ht (getLast?_of_derives ht)⟩
  | literal hk hv _ =>
      have hclosed : (Span.scan _ cfg.quoting c.rest).closed = true :=
        Span.closed_of_rest_ne_nil hrest
      exact ⟨[], _, c.passes_skipSpan _ cfg.quoting, isSpaces_nil,
        .literal (isLiteral_of_closed hk hclosed) hv (getLast?_scan hk hclosed)⟩
  | raw _ =>
      obtain ⟨y, s, hy⟩ := List.exists_cons_of_ne_nil hrest
      have hpeek : c.skipRaw.peek? = some y := congrArg List.head? hy
      have hstop : Cursor.isRawChar y = false := Cursor.halts_skipWhile _ c y hpeek
      have hskip : c.skipRaw.skipSpace = c.skipRaw :=
        skipSpace_of_peek? hpeek (isSpace_of_isRawChar hstop)
      rw [hskip, hpeek] at hcomma hparen
      simp only [Cursor.isRawChar, Bool.and_eq_false_iff, bne_eq_false_iff_eq] at hstop
      rcases hstop with rfl | rfl
      · exact absurd rfl hcomma
      · exact absurd rfl hparen

theorem faults_noClosing {p : List Char} (hp : (Cursor.start text).Passes p c)
    (hlead : LeadsTo cfg.quoting level p) (hlevel : 0 < level)
    (ha : ReadsArgument cfg level c es (.ok (a, d))) (hcomma : d.skipSpace.peek? ≠ some ',')
    (hparen : d.skipSpace.peek? ≠ some ')') :
    cfg.Faults text (.missing .closing d.skipSpace.pos) := by
  cases hrest : d.skipSpace.rest with
  | nil =>
      have hle := Cursor.le_trans hp.le (Cursor.le_trans (le_of_readsArgument ha) d.le_skipSpace)
      obtain ⟨t, htext, hpos⟩ := Cursor.exists_eq_append hle
      rw [hrest, List.append_nil] at htext
      rw [hpos, ← htext]
      exact .atEnd
  | cons y s =>
      have hpeek : d.skipSpace.peek? = some y := congrArg List.head? hrest
      obtain ⟨u, t, ht, hu, hbracketed⟩ := exists_isBracketed ha (by simp [hrest]) hcomma hparen
      obtain ⟨w, hw, hw'⟩ := d.passes_skipSpace
      have hpasses := (hp.trans ht).trans hw
      rw [← List.append_assoc p, List.append_assoc _ t] at hpasses
      obtain ⟨htext, hpos⟩ := Cursor.eq_of_passes_start hpasses
      rw [hrest] at htext
      rw [hpos]
      refine .afterBracket htext (leadsTo_append hlead hu) hlevel hbracketed hw' ?_ ?_ ?_
      · exact Cursor.halts_skipWhile isSpace d y hpeek
      · exact fun hy => hcomma (hy ▸ hpeek)
      · exact fun hy => hparen (hy ▸ hpeek)

theorem faults_of_breaks (hc : Inside cfg.quoting text level c) (h : Breaks cfg level c es x) :
    cfg.Faults text x := by
  obtain ⟨p, hp, hlead⟩ := hc
  obtain ⟨htext, hpos⟩ := Cursor.eq_of_passes_start hp
  cases h with
  | noOpening hd hb ho =>
      have hskip : c.skipSpace = c := skipSpace_of_peek? (hb.peek?_eq_some rfl) rfl
      obtain ⟨u, name, w, hpasses, hu, hn, hw, -⟩ := Cursor.exists_passes_skipName (hskip ▸ hb)
      have hfull := hp.trans hpasses
      rw [← List.append_assoc] at hfull
      obtain ⟨htext, hpos⟩ := Cursor.eq_of_passes_start hfull
      rw [hpos]
      exact .noOpening htext (leadsTo_append hlead hu) hd hn hw (Cursor.halts_skipWhile isSpace _) ho
  | noClosing hlevel ha hcomma hparen => exact faults_noClosing hp hlead hlevel ha hcomma hparen
  | badLiteral hlevel hk hy =>
      rw [hpos]
      exact .badLiteral htext hlead hlevel hk hy
  | tooDeep hd hs =>
      rw [hpos]
      exact .tooDeep htext (hd ▸ hlead) (halts_of_peek? hs rfl) fun _ => hs

theorem BreaksIn.faults (h : BreaksIn cfg text es x) : cfg.Faults text x := by
  obtain ⟨level, c, es₁, es₂, hc, -, h⟩ := h
  exact faults_of_breaks hc h

theorem BreaksIn.ne_sigil {n : Nat} (h : BreaksIn cfg text es x) : x ≠ .missing .sigil n := by
  obtain ⟨level, c, es₁, es₂, -, -, h⟩ := h
  cases h <;> simp

/-- Why no call is read from the start of a text: the limit, what comes first, or a step inside it. -/
theorem breaksIn_or_of_readsCall (h : ReadsCall cfg 1 (.start text) es (.error x)) :
    (cfg.maxDepth = 0 ∧ x = .tooDeep cfg.maxDepth (Cursor.start text).skipSpace.pos ∧ es = []) ∨
      (0 < cfg.maxDepth ∧ (Cursor.start text).skipSpace.peek? ≠ some '$' ∧
        x = .missing .sigil (Cursor.start text).skipSpace.pos ∧ es = []) ∨
      BreaksIn cfg text es x := by
  by_cases hs : (Cursor.start text).skipSpace.peek? = some '$'
  · rcases Nat.eq_zero_or_pos cfg.maxDepth with hd | hd
    · obtain ⟨hes, hx⟩ := h.eq_of_lt (by omega)
      exact .inl ⟨hd, Except.error.inj hx, hes⟩
    · exact .inr (.inr (failsInside_of_readsCall h rfl hd (.start _ text) hs))
  · cases h with
    | tooDeep hd => exact .inl ⟨Nat.lt_one_iff.mp hd, rfl, rfl⟩
    | noSigil hd => exact .inr (.inl ⟨hd, hs, rfl, rfl⟩)
    | noOpening _ hb => exact absurd (hb.peek?_eq_some rfl) hs
    | badArguments _ ho | noClosing _ ho => exact absurd (ho.sigil.peek?_eq_some rfl) hs

theorem pos_skipSpace_start (text : List Char) :
    (Cursor.start text).skipSpace.pos = byteLength (text.takeWhile isSpace) := Nat.zero_add _

theorem faults_of_readsCall (h : ReadsCall cfg 1 (.start text) es (.error x)) :
    cfg.Faults text x := by
  have htext : text = text.takeWhile isSpace ++ text.dropWhile isSpace :=
    List.takeWhile_append_dropWhile.symm
  have hlead : LeadsTo cfg.quoting 0 (text.takeWhile isSpace) :=
    .start (List.all_eq_true.mp List.all_takeWhile)
  have hhalts : Halts isSpace (text.dropWhile isSpace) := halts_dropWhile isSpace text
  obtain ⟨hd, rfl, -⟩ | ⟨hd, hs, rfl, -⟩ | h := breaksIn_or_of_readsCall h
  · rw [pos_skipSpace_start]
    exact .tooDeep htext (hd.symm ▸ hlead) hhalts fun hne => absurd hd hne
  · rw [pos_skipSpace_start]
    exact .noSigil htext hlead hd hhalts hs
  · exact h.faults

/-- An error tells what a text is like at its place. A sigil is missing exactly if the first character
after blanks is another one, or none, so in no call inside another. -/
theorem faults_of_leadingCall (cfg : Config) (text : String) :
    (∀ n, cfg.leadingCall text = .error (.missing .sigil n) ↔
      0 < cfg.maxDepth ∧ (text.toList.dropWhile isSpace).head? ≠ some '$' ∧
        n = byteLength (text.toList.takeWhile isSpace)) ∧
    ∀ x, cfg.leadingCall text = .error x → cfg.Faults text.toList x := by
  refine ⟨fun n => ⟨fun h => ?_, ?_⟩, fun x h => ?_⟩
  · obtain ⟨es, hread⟩ := run_eq_error_iff_reads.mp h
    obtain ⟨-, hx, -⟩ | ⟨hd, hs, hx, -⟩ | hbreaks := breaksIn_or_of_readsCall hread
    · cases hx
    · cases hx
      exact ⟨hd, hs, pos_skipSpace_start _⟩
    · exact absurd rfl hbreaks.ne_sigil
  · rintro ⟨hd, hs, rfl⟩
    rw [← pos_skipSpace_start]
    exact run_eq_error_iff_reads.mpr ⟨[], .noSigil hd hs⟩
  · obtain ⟨es, hread⟩ := run_eq_error_iff_reads.mp h
    exact faults_of_readsCall hread

/-- No sigil, a character after a call in a call, and a third call in each other. -/
theorem faults_of_leadingCall_nested :
    let cfg : Config := ⟨2, .naive⟩
    cfg.leadingCall " x" = .error (.missing .sigil 1) ∧
      (cfg.leadingCall "$f($g(1) x)" = .error (.missing .closing 9) ∧
        cfg.Faults "$f($g(1) x)".toList (.missing .closing 9)) ∧
      cfg.leadingCall "$f([1], $g($h()))" = .error (.tooDeep 2 11) ∧
      cfg.Faults "$f([1], $g($h()))".toList (.tooDeep 2 11) := by
  intro cfg
  have hclosing : cfg.leadingCall "$f($g(1) x)" = .error (.missing .closing 9) := by
    dsimp only [cfg]
    with_unfolding_all rfl
  have hdeep : cfg.leadingCall "$f([1], $g($h()))" = .error (.tooDeep 2 11) := by
    dsimp only [cfg]
    with_unfolding_all rfl
  refine ⟨?_, ⟨hclosing, ?_⟩, hdeep, ?_⟩
  · exact ((faults_of_leadingCall cfg " x").1 1).mpr ⟨Nat.zero_lt_two, by decide, by decide⟩
  · exact (faults_of_leadingCall cfg _).2 _ hclosing
  · exact (faults_of_leadingCall cfg _).2 _ hdeep

end SigilCall
