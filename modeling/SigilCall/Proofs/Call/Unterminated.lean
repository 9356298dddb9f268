import SigilCall.Proofs.Call.Unclosed

namespace SigilCall

open Text Literal

theorem Literal.ne_nil_of_isValue {mode : Quoting} {t : List Char} (h : Json.IsValue mode t) :
    t ≠ [] := by
  cases h with
  | number h =>
      obtain ⟨x, hx, -⟩ := exists_head?_of_isNumber h
      rintro rfl
      cases hx
  | string h =>
      cases h
      exact List.cons_ne_nil _ _
  | _ => exact List.cons_ne_nil _ _

namespace Cursor

def finish (c : Cursor) : Cursor := ⟨c.pos + byteLength c.rest, []⟩

@[simp] theorem skipSpace_finish (c : Cursor) : c.finish.skipSpace = c.finish := skipWhile_of_halts halts_nil

end Cursor

variable {α : Type} {cfg : Config} {mode : Quoting} {k : Kind} {depth : Nat} {c d b e f g l : Cursor}
  {x : CallError} {a : Argument} {args : List Argument} {es es' : List Event} {v : Json}

structure Dangles (mode : Quoting) (k : Kind) (l : Cursor) : Prop where
  opening : l.peek? = some k.opening
  unclosed : (Span.scan k mode l.rest).closed = false

namespace Dangles

theorem text_eq (h : Dangles mode k l) : (Span.scan k mode l.rest).text = l.rest := by
  have happend := Span.scan_append k mode l.rest
  rwa [Span.rest_eq_nil_of_closed h.unclosed, List.append_nil] at happend

theorem skipSpan_eq (h : Dangles mode k l) : l.skipSpan k mode = l.finish := by
  rw [Cursor.skipSpan, h.text_eq, Span.rest_eq_nil_of_closed h.unclosed]
  rfl

/-- In escaped mode the text of a literal is not decoded unless it is closed. In naive mode there is
an escaped quotation mark in it then. -/
theorem naive_of_decode (h : Dangles mode k l) (hv : Json.decode l.rest = .ok v) :
    mode = .naive ∧ ¬ Json.IsElement .naive l.rest := by
  have hopen := h.unclosed
  have hclosed : ∀ m s, Json.IsValue m s → s.head? = some k.opening → ∀ r, l.rest = s ++ r →
      m ≠ mode := by
    rintro m s hs hk r hr rfl
    rw [hr, scan_of_isValue hs hk r] at hopen
    cases hopen
  have hescaped : Quoting.escaped ≠ mode := by
    obtain ⟨s, r, hr, hk, hs, -⟩ := exists_writes_of_decode hv h.opening
    exact hclosed _ s (Json.isValue_of_writes hs) hk r hr
  have hmode : mode = .naive := by
    cases mode with
    | naive => rfl
    | escaped => exact absurd rfl hescaped
  refine ⟨hmode, fun helement => ?_⟩
  have hk := h.opening
  rw [Cursor.peek?] at hk
  generalize l.rest = t at hk helement hclosed
  cases helement with
  | @mk u s w hu hs hw =>
      cases u with
      | nil =>
          obtain ⟨y, r, rfl⟩ := List.exists_cons_of_ne_nil (ne_nil_of_isValue hs)
          exact hclosed _ (y :: r) hs hk w rfl hmode.symm
      | cons y u =>
          obtain rfl : y = k.opening := Option.some.inj hk
          have hblank := hu k.opening (by simp)
          cases k <;> cases hblank

end Dangles

/-- What a reading ends in if a literal in it is not closed: the fault in its text, or the end of the
text if that is decoded all the same. -/
def EndsIn (k : Kind) (l : Cursor) : Except CallError (α × Cursor) → Prop
  | .error x =>
      (∃ y, Json.decode l.rest = .error y ∧ x = .badLiteral k l.pos y) ∨
        (∃ v, Json.decode l.rest = .ok v) ∧ x = .missing .closing l.finish.pos
  | .ok (_, d) => (∃ v, Json.decode l.rest = .ok v) ∧ d = l.finish

def EndsUnterminated (mode : Quoting) (c : Cursor) (es : List Event)
    (o : Except CallError (α × Cursor)) : Prop :=
  ∀ ⦃k m n⦄, .spanScanned k m n false ∈ es →
    ∃ l, c ≤ l ∧ Dangles mode k l ∧ l.pos = m ∧ l.finish.pos = n ∧ EndsIn k l o

namespace EndsUnterminated

theorem mono {o : Except CallError (α × Cursor)} (h : EndsUnterminated mode d es o) (hc : c ≤ d) :
    EndsUnterminated mode c es o := by
  intro k m n hmem
  obtain ⟨l, hl, h⟩ := h hmem
  exact ⟨l, Cursor.le_trans hc hl, h⟩

theorem of_not_mem {o : Except CallError (α × Cursor)}
    (h : ∀ k m n, .spanScanned k m n false ∉ es) : EndsUnterminated mode c es o :=
  fun k m n hmem => absurd hmem (h k m n)

theorem badArguments {n : Nat} {name : String} (hle : c ≤ e)
    (hl : EndsUnterminated mode e es (.error x : Except CallError (List Argument × Cursor))) :
    EndsUnterminated mode c (.nameRead name depth n :: es)
      (.error x : Except CallError (Call × Cursor)) := by
  intro k m n hmem
  obtain ⟨l, hel, h⟩ := hl (List.mem_of_ne_of_mem (by rintro ⟨⟩) hmem)
  exact ⟨l, Cursor.le_trans hle hel, h⟩

theorem noClosing {n : Nat} {name : String} (hle : c ≤ e)
    (hl : EndsUnterminated mode e es (.ok (args, f))) :
    EndsUnterminated mode c (.nameRead name depth n :: es)
      (.error (.missing .closing f.skipSpace.pos) : Except CallError (Call × Cursor)) := by
  intro k m n hmem
  obtain ⟨l, hel, hdangles, hm, hn, hv, rfl⟩ := hl (List.mem_of_ne_of_mem (by rintro ⟨⟩) hmem)
  exact ⟨l, Cursor.le_trans hle hel, hdangles, hm, hn, .inr ⟨hv, by rw [Cursor.skipSpace_finish]⟩⟩

/-- A character that comes after all of it shows that no literal was left open. -/
theorem not_mem {y : Char} {a : α} (h : EndsUnterminated mode c es (.ok (a, d)))
    (hp : d.skipSpace.Passes [y] e) : ∀ k m n, .spanScanned k m n false ∉ es := by
  intro k m n hmem
  obtain ⟨l, -, -, -, -, -, rfl⟩ := h hmem
  rw [Cursor.skipSpace_finish] at hp
  exact Cursor.rest_ne_nil_of_passes hp rfl

theorem last (h : EndsUnterminated mode c.skipSpace es (.ok (a, d))) :
    EndsUnterminated mode c es (.ok ([a], d.skipSpace)) := by
  intro k m n hmem
  obtain ⟨l, hl, hdangles, hm, hn, hv, rfl⟩ := h hmem
  exact ⟨l, Cursor.le_trans c.le_skipSpace hl, hdangles, hm, hn, hv, Cursor.skipSpace_finish l⟩

theorem ok {β : Type} {a : α} (h : EndsUnterminated mode c es (.ok (a, d))) (b : β) :
    EndsUnterminated mode c es (.ok (b, d)) := fun _ _ _ hmem => h hmem

theorem append {o : Except CallError (α × Cursor)} (hle : c ≤ e)
    (h : ∀ k m n, .spanScanned k m n false ∉ es) (hl : EndsUnterminated mode e es' o) :
    EndsUnterminated mode c (es ++ es') o := by
  intro k m n hmem
  rcases List.mem_append.mp hmem with hmem | hmem
  · exact absurd hmem (h k m n)
  · exact hl.mono hle hmem

end EndsUnterminated

theorem dangles_of_mem {m n : Nat} {k' : Kind} (hk : c.peek? = some k.opening)
    (h : .spanScanned k' m n false ∈ [spanEvent mode k c]) :
    k' = k ∧ m = c.pos ∧ n = c.finish.pos ∧ Dangles mode k c := by
  have heq := List.mem_singleton.mp h
  simp only [spanEvent, Event.spanScanned.injEq] at heq
  obtain ⟨rfl, rfl, rfl, hclosed⟩ := heq
  have hdangles : Dangles mode k' c := ⟨hk, hclosed.symm⟩
  exact ⟨rfl, rfl, by rw [hdangles.skipSpan_eq], hdangles⟩

theorem endsUnterminated_badLiteral {y : Json.DecodeError} (hk : c.peek? = some k.opening)
    (hy : Json.decode (Span.scan k mode c.rest).text = .error y) :
    EndsUnterminated mode c [spanEvent mode k c]
      (.error (.badLiteral k c.pos y) : Except CallError (Argument × Cursor)) := by
  intro k' m n hmem
  obtain ⟨rfl, rfl, rfl, hdangles⟩ := dangles_of_mem hk hmem
  rw [hdangles.text_eq] at hy
  exact ⟨c, c.le_refl, hdangles, rfl, rfl, .inl ⟨y, hy, rfl⟩⟩

theorem endsUnterminated_literal (hk : c.peek? = some k.opening)
    (hv : Json.decode (Span.scan k mode c.rest).text = .ok v) :
    EndsUnterminated mode c [spanEvent mode k c] (.ok (a, c.skipSpan k mode)) := by
  intro k' m n hmem
  obtain ⟨rfl, rfl, rfl, hdangles⟩ := dangles_of_mem hk hmem
  rw [hdangles.text_eq] at hv
  exact ⟨c, c.le_refl, hdangles, rfl, rfl, ⟨v, hv⟩, hdangles.skipSpan_eq⟩

mutual

/-- A literal that is not closed is the last thing that a reading comes upon. -/
theorem endsUnterminated_of_readsCall {cfg : Config} {depth : Nat} {c : Cursor} {es : List Event}
    {o : Except CallError (Call × Cursor)} (h : ReadsCall cfg depth c es o) :
    EndsUnterminated cfg.quoting c es o := by
  match h with
  | .tooDeep _ | .noSigil _ _ | .noOpening _ _ _ => exact .of_not_mem (by simp)
  | .badArguments _ ho hl => exact (endsUnterminated_of_readsList hl).badArguments ho.le
  | .noClosing _ ho hl _ => exact (endsUnterminated_of_readsList hl).noClosing ho.le
  | .call _ _ hl hg =>
      have hnot := (endsUnterminated_of_readsList hl).not_mem hg
      exact .of_not_mem (by simpa using hnot)

theorem endsUnterminated_of_readsList {cfg : Config} {depth : Nat} {c : Cursor} {es : List Event}
    {o : Except CallError (List Argument × Cursor)} (h : ReadsList cfg depth c es o) :
    EndsUnterminated cfg.quoting c es o := by
  match h with
  | .badFirst ha => exact (endsUnterminated_of_readsArgument ha).mono c.le_skipSpace
  | .last ha _ => exact (endsUnterminated_of_readsArgument ha).last
  | .badRest ha he hl =>
      exact .append (le_of_comma ha he) ((endsUnterminated_of_readsArgument ha).not_mem he)
        (endsUnterminated_of_readsList hl)
  | .more ha he hl =>
      exact .append (le_of_comma ha he) ((endsUnterminated_of_readsArgument ha).not_mem he)
        ((endsUnterminated_of_readsList hl).ok _)

theorem endsUnterminated_of_readsArgument {cfg : Config} {depth : Nat} {c : Cursor}
    {es : List Event} {o : Except CallError (Argument × Cursor)}
    (h : ReadsArgument cfg depth c es o) : EndsUnterminated cfg.quoting c es o := by
  match h with
  | .badCall _ hc => exact endsUnterminated_of_readsCall hc
  | .call _ hc => exact (endsUnterminated_of_readsCall hc).ok _
  | .badLiteral hk hy => exact endsUnterminated_badLiteral hk hy
  | .literal hk hv _ => exact endsUnterminated_literal hk hv
  | .raw _ => exact .of_not_mem (by simp [rawEvent])

end

/-- All literals of a call that is read are closed. -/
theorem closed_of_readsCall {v : Call} (h : ReadsCall cfg depth c es (.ok (v, g))) :
    ∀ k m n, .spanScanned k m n false ∉ es := by
  cases h with
  | call _ _ hl hg => simpa using (endsUnterminated_of_readsList hl).not_mem hg

theorem mem_of_mem_trace {text : String} {o : Except CallError (Call × Cursor)} {m n : Nat}
    {closed : Bool} (h : ReadsCall cfg 1 (.start text.toList) es o)
    (hmem : .spanScanned k m n closed ∈ cfg.trace text) : .spanScanned k m n closed ∈ es := by
  rw [Config.trace, events_run_of_reads h] at hmem
  rcases List.mem_append.mp hmem with hmem | hmem
  · exact hmem
  · obtain x | ⟨v, g⟩ := o <;> cases List.mem_singleton.mp hmem

/-- A text with a literal that is not closed fails, and ends in that literal. The fault is in the
literal if the text from its bracket on is not decoded. In naive mode that text may be a JSON text
with an escaped quotation mark, and then a closing parenthesis is missed after it. -/
theorem leadingCall_of_unclosed (cfg : Config) {text : String} {k : Kind} {m n : Nat}
    (h : .spanScanned k m n false ∈ cfg.trace text) :
    ∃ s, dropBytes? text.toList m = some s ∧ s.head? = some k.opening ∧
      n = byteLength text.toList ∧
      ((∃ y, Json.decode s = .error y ∧ cfg.leadingCall text = .error (.badLiteral k m y)) ∨
        cfg.quoting = .naive ∧ (∃ v, Json.decode s = .ok v) ∧ ¬ Json.IsElement .naive s ∧
          cfg.leadingCall text = .error (.missing .closing n)) := by
  have hread := (obeys_rules cfg).1 1 (.start text.toList)
  have hmem := mem_of_mem_trace hread h
  obtain ⟨l, hle, hdangles, rfl, rfl, hends⟩ := endsUnterminated_of_readsCall hread hmem
  have hresult := result_run_of_reads hread
  refine ⟨l.rest, Cursor.dropBytes?_of_le hle, hdangles.opening, ?_, ?_⟩
  · exact Cursor.pos_add_rest hle
  · cases ho : ((Read.call cfg 1 (.start text.toList)).map Reading.pair).result with
    | ok r =>
        rw [Run.Obeys, ho] at hread
        exact absurd hmem (closed_of_readsCall hread _ _ _)
    | error x =>
        rw [ho] at hends hresult
        rcases hends with ⟨y, hy, rfl⟩ | ⟨⟨v, hv⟩, rfl⟩
        · exact .inl ⟨y, hy, hresult⟩
        · obtain ⟨hmode, hnot⟩ := hdangles.naive_of_decode hv
          exact .inr ⟨hmode, ⟨v, hv⟩, hnot, hresult⟩

/-- The literal of the first text is at fault. In the second one naive mode takes the escaped
quotation mark for the end of the string and so does not see the bracket, but the text is decoded. -/
theorem leadingCall_of_unclosed_mark :
    let cfg : Config := ⟨1, .naive⟩
    (.spanScanned .object 3 8 false ∈ cfg.trace "$f(\x7b[1])" ∧
      ∃ y, cfg.leadingCall "$f(\x7b[1])" = .error (.badLiteral .object 3 y)) ∧
      .spanScanned .array 3 9 false ∈ cfg.trace "$f([\"\\\"\"]" ∧
      cfg.leadingCall "$f([\"\\\"\"]" = .error (.missing .closing 9) := by
  intro cfg
  have hx : .spanScanned .object 3 8 false ∈ cfg.trace "$f(\x7b[1])" := by
    have htrace : cfg.trace "$f(\x7b[1])" =
        [.nameRead "f" 1 1, .spanScanned .object 3 8 false,
          .failed (.badLiteral .object 3 ⟨.keyNotString, 1, 2⟩)] := by
      dsimp only [cfg]
      with_unfolding_all rfl
    simp [htrace]
  have hy : .spanScanned .array 3 9 false ∈ cfg.trace "$f([\"\\\"\"]" := by
    have htrace : cfg.trace "$f([\"\\\"\"]" =
        [.nameRead "f" 1 1, .spanScanned .array 3 9 false, .failed (.missing .closing 9)] := by
      dsimp only [cfg]
      with_unfolding_all rfl
    simp [htrace]
  refine ⟨⟨hx, ?_⟩, hy, ?_⟩
  · obtain ⟨s, hs, -, -, ⟨y, -, h⟩ | ⟨-, ⟨v, hv⟩, -⟩⟩ := leadingCall_of_unclosed cfg hx
    · exact ⟨y, h⟩
    · obtain rfl : "\x7b[1])".toList = s := Option.some.inj hs
      have hdecode : Json.decode "\x7b[1])".toList = .error ⟨.keyNotString, 1, 2⟩ := by
        with_unfolding_all rfl
      rw [hdecode] at hv
      cases hv
  · obtain ⟨s, hs, -, -, ⟨y, hy, -⟩ | ⟨-, -, -, h⟩⟩ := leadingCall_of_unclosed cfg hy
    · obtain rfl : "[\"\\\"\"]".toList = s := Option.some.inj hs
      have hdecode : Json.decode "[\"\\\"\"]".toList = .ok (.array [.string "\""]) := by
        with_unfolding_all rfl
      rw [hdecode] at hy
      cases hy
    · exact h

/-- A literal that is not closed need not be what is at fault. -/
theorem not_badLiteral_of_unclosed :
    ¬ ∀ (cfg : Config) (text : String) (k : Kind) (m n : Nat),
      .spanScanned k m n false ∈ cfg.trace text →
        ∃ y, cfg.leadingCall text = .error (.badLiteral k m y) := by
  intro h
  have htrace : Config.trace ⟨1, .naive⟩ "$f([\"\\\"\"]" =
      [.nameRead "f" 1 1, .spanScanned .array 3 9 false, .failed (.missing .closing 9)] := by
    with_unfolding_all rfl
  have hresult : Config.leadingCall ⟨1, .naive⟩ "$f([\"\\\"\"]" = .error (.missing .closing 9) := by
    with_unfolding_all rfl
  obtain ⟨y, hy⟩ := h ⟨1, .naive⟩ "$f([\"\\\"\"]" .array 3 9 (by simp [htrace])
  rw [hresult] at hy
  cases hy

end SigilCall
