import SigilCall.Proofs.Call.Ascent
import SigilCall.Proofs.Call.Fault
import SigilCall.Proofs.Call.Unterminated

namespace SigilCall

open Text Literal

structure IsOrderly (limit : Nat) (es : List Event) : Prop where
  level : ∀ e ∈ es, e.level = .trace
  depth_le : ∀ name depth m, .nameRead name depth m ∈ es → depth ≤ limit
  unclosed_last : ∀ k m n, .spanScanned k m n false ∉ es.dropLast

variable {cfg : Config} {mode : Quoting} {text : List Char} {limit level depth : Nat}
  {c d b : Cursor} {es es' : List Event} {x : CallError} {s t : List Char} {k : Kind}

theorem isOrderly_nil : IsOrderly limit [] := ⟨by simp, by simp, by simp⟩

theorem isOrderly_nameRead {name : String} {m : Nat} (hd : depth ≤ limit) :
    IsOrderly limit [.nameRead name depth m] := by
  refine ⟨by simp [Event.level], ?_, by simp⟩
  rintro name' depth' m' hmem
  cases List.mem_singleton.mp hmem
  exact hd

theorem isOrderly_spanEvent (c : Cursor) : IsOrderly limit [spanEvent mode k c] :=
  ⟨by simp, by simp [spanEvent], by simp⟩

theorem isOrderly_rawEvent (c : Cursor) : IsOrderly limit [rawEvent c] :=
  ⟨by simp, by simp [rawEvent], by simp⟩

/-- After events that leave no literal open, others may follow. -/
theorem IsOrderly.append (h : IsOrderly limit es) (hclosed : ∀ k m n, .spanScanned k m n false ∉ es)
    (h' : IsOrderly limit es') : IsOrderly limit (es ++ es') := by
  refine ⟨List.forall_mem_append.mpr ⟨h.level, h'.level⟩, ?_, ?_⟩
  · intro name depth m hmem
    rcases List.mem_append.mp hmem with hmem | hmem
    · exact h.depth_le name depth m hmem
    · exact h'.depth_le name depth m hmem
  · intro k m n hmem
    by_cases hes : es' = []
    · rw [hes, List.append_nil] at hmem
      exact h.unclosed_last k m n hmem
    · rw [List.dropLast_append_of_ne_nil hes] at hmem
      rcases List.mem_append.mp hmem with hmem | hmem
      · exact hclosed k m n hmem
      · exact h'.unclosed_last k m n hmem

theorem IsOrderly.nameRead {name : String} {m : Nat} (h : IsOrderly limit es)
    (hd : depth ≤ limit) : IsOrderly limit (.nameRead name depth m :: es) :=
  (isOrderly_nameRead hd).append (by simp) h

mutual

/-- Nothing that a reading does is its outcome or is too deep, and it stops after a literal that is
not closed. -/
theorem isOrderly_of_readsCall {cfg : Config} {depth : Nat} {c : Cursor} {es : List Event}
    {o : Except CallError (Call × Cursor)} (h : ReadsCall cfg depth c es o) :
    IsOrderly cfg.maxDepth es := by
  match h with
  | .tooDeep _ | .noSigil _ _ => exact isOrderly_nil
  | .noOpening hd _ _ => exact isOrderly_nameRead hd
  | .badArguments hd _ hl | .noClosing hd _ hl _ | .call hd _ hl _ =>
      exact (isOrderly_of_readsList hl).nameRead hd

theorem isOrderly_of_readsList {cfg : Config} {depth : Nat} {c : Cursor} {es : List Event}
    {o : Except CallError (List Argument × Cursor)} (h : ReadsList cfg depth c es o) :
    IsOrderly cfg.maxDepth es := by
  match h with
  | .badFirst ha | .last ha _ => exact isOrderly_of_readsArgument ha
  | .badRest ha he hl | .more ha he hl =>
      have hclosed := (endsUnterminated_of_readsArgument ha).not_mem he
      exact (isOrderly_of_readsArgument ha).append hclosed (isOrderly_of_readsList hl)

theorem isOrderly_of_readsArgument {cfg : Config} {depth : Nat} {c : Cursor} {es : List Event}
    {o : Except CallError (Argument × Cursor)} (h : ReadsArgument cfg depth c es o) :
    IsOrderly cfg.maxDepth es := by
  match h with
  | .badCall _ hc | .call _ hc => exact isOrderly_of_readsCall hc
  | .badLiteral _ _ | .literal _ _ _ => exact isOrderly_spanEvent c
  | .raw _ => exact isOrderly_rawEvent c

end

structure Config.LogsFailure (cfg : Config) (text : List Char) (x : CallError) (es : List Event) :
    Prop where
  level : ∀ e ∈ es, e.level = .trace
  silent : (∃ n, x = .missing .sigil n) ∨ cfg.maxDepth = 0 → es = []
  name_last : ∀ n, x = .missing .opening n → ∃ es' name depth m w,
    es = es' ++ [.nameRead name depth m] ∧ slice? text m n = some (name.toList ++ w) ∧ IsSpaces w
  literal_last : ∀ k m y, x = .badLiteral k m y → ∃ es' n closed,
    es = es' ++ [.spanScanned k m n closed]
  unclosed_last : ∀ k m n, .spanScanned k m n false ∉ es.dropLast
  unclosed_stop : ∀ k m n, .spanScanned k m n false ∈ es → n = byteLength text
  depth_le : ∀ name depth m, .nameRead name depth m ∈ es → depth ≤ cfg.maxDepth
  increasing : (positions es).Pairwise (· < ·)

theorem Breaks.name_last {n : Nat} (hc : Inside mode text level c)
    (h : Breaks cfg level c es (.missing .opening n)) :
    ∃ name m w, es = [.nameRead name (level + 1) m] ∧
      slice? text m n = some (name.toList ++ w) ∧ IsSpaces w := by
  obtain ⟨p, hp, -⟩ := hc
  cases h with
  | @noOpening b _ hb _ =>
      obtain ⟨w, hw, hw'⟩ := (b.skipWhile isNameChar).passes_skipSpace
      have hname : b.name.toList = b.rest.takeWhile isNameChar := String.toList_ofList
      refine ⟨b.name, b.pos, w, rfl, ?_, hw'⟩
      rw [hname]
      exact Cursor.slice?_of_passes (hp.trans hb).le ((b.passes_skipWhile isNameChar).trans hw)

theorem Breaks.literal_last {m : Nat} {y : Json.DecodeError}
    (h : Breaks cfg level c es (.badLiteral k m y)) :
    ∃ n closed, es = [.spanScanned k m n closed] := by
  cases h with
  | badLiteral => exact ⟨_, _, rfl⟩

theorem silent_of_readsCall (h : ReadsCall cfg 1 (.start text) es (.error x))
    (hx : (∃ n, x = .missing .sigil n) ∨ cfg.maxDepth = 0) : es = [] := by
  obtain ⟨-, -, hes⟩ | ⟨-, -, -, hes⟩ | hbreaks := breaksIn_or_of_readsCall h
  · exact hes
  · exact hes
  · rcases hx with ⟨n, hx⟩ | hd
    · exact absurd hx hbreaks.ne_sigil
    · exact (h.eq_of_lt (by omega)).1

/-- An error that is not one of the limit or of the sigil comes of a step. -/
theorem breaksIn_of_ne (h : ReadsCall cfg 1 (.start text) es (.error x))
    (hdeep : ∀ m n, x ≠ .tooDeep m n) (hsigil : ∀ n, x ≠ .missing .sigil n) :
    BreaksIn cfg text es x := by
  obtain ⟨-, hx, -⟩ | ⟨-, -, hx, -⟩ | hbreaks := breaksIn_or_of_readsCall h
  · exact absurd hx (hdeep _ _)
  · exact absurd hx (hsigil _)
  · exact hbreaks

theorem logsFailure_of_readsCall (h : ReadsCall cfg 1 (.start text) es (.error x)) :
    cfg.LogsFailure text x es := by
  have horderly := isOrderly_of_readsCall h
  refine
    { level := horderly.level
      silent := silent_of_readsCall h
      name_last := ?_
      literal_last := ?_
      unclosed_last := horderly.unclosed_last
      unclosed_stop := ?_
      depth_le := horderly.depth_le
      increasing := (callAscends_error.mp (callAscends_of_reads h)).increasing }
  · rintro n rfl
    obtain ⟨level, c, es₁, es₂, hc, rfl, hbreaks⟩ := breaksIn_of_ne h (by simp) (by simp)
    obtain ⟨name, m, w, rfl, hw⟩ := hbreaks.name_last hc
    exact ⟨es₁, name, _, m, w, rfl, hw⟩
  · rintro k m y rfl
    obtain ⟨level, c, es₁, es₂, hc, rfl, hbreaks⟩ := breaksIn_of_ne h (by simp) (by simp)
    obtain ⟨n, closed, rfl⟩ := hbreaks.literal_last
    exact ⟨es₁, n, closed, rfl⟩
  · intro k m n hmem
    obtain ⟨l, hle, -, -, rfl, -⟩ := endsUnterminated_of_readsCall h hmem
    exact Cursor.pos_add_rest hle

/-- A run that fails leaves behind the events of its steps, and after them the failure with its text.
The steps end where it fails: after the name, if no parenthesis follows it, and with the literal that
is at fault. -/
theorem logsFailure_of_leadingCall {text : String} (h : cfg.leadingCall text = .error x) :
    ∃ es, cfg.trace text = es ++ [.failed x] ∧ cfg.LogsFailure text.toList x es ∧
      (Event.failed x).level = .debug ∧ (Event.failed x).message = "call parse failed" ∧
      (Event.failed x).fields = [("err", .text x.message)] := by
  obtain ⟨es, hread⟩ := run_eq_error_iff_reads.mp h
  exact ⟨es, events_run_of_reads hread, logsFailure_of_readsCall hread, rfl, rfl, rfl⟩

/-- The name of a call in a call, with blanks after it, and a literal that is not closed. -/
theorem logsFailure_of_leadingCall_nested :
    let cfg : Config := ⟨2, .naive⟩
    (cfg.leadingCall "$f(x, $g  [" = .error (.missing .opening 10) ∧
      ∃ es name depth m w, cfg.trace "$f(x, $g  [" =
        (es ++ [.nameRead name depth m]) ++ [.failed (.missing .opening 10)] ∧
        slice? "$f(x, $g  [".toList m 10 = some (name.toList ++ w) ∧ IsSpaces w) ∧
      cfg.leadingCall "$f($g([1)" = .error (.badLiteral .array 6 ⟨.expectedListComma, 1, 3⟩) ∧
      ∃ es n closed, cfg.trace "$f($g([1)" = (es ++ [.spanScanned .array 6 n closed]) ++
        [.failed (.badLiteral .array 6 ⟨.expectedListComma, 1, 3⟩)] := by
  intro cfg
  have hname : cfg.leadingCall "$f(x, $g  [" = .error (.missing .opening 10) := by
    dsimp only [cfg]
    with_unfolding_all rfl
  have hliteral : cfg.leadingCall "$f($g([1)" =
      .error (.badLiteral .array 6 ⟨.expectedListComma, 1, 3⟩) := by
    dsimp only [cfg]
    with_unfolding_all rfl
  refine ⟨⟨hname, ?_⟩, hliteral, ?_⟩
  · obtain ⟨es, htrace, hlog, -⟩ := logsFailure_of_leadingCall hname
    obtain ⟨es', name, depth, m, w, rfl, hw⟩ := hlog.name_last 10 rfl
    exact ⟨es', name, depth, m, w, htrace, hw⟩
  · obtain ⟨es, htrace, hlog, -⟩ := logsFailure_of_leadingCall hliteral
    obtain ⟨es', n, closed, rfl⟩ := hlog.literal_last _ _ _ rfl
    exact ⟨es', n, closed, htrace⟩

end SigilCall
