import SigilCall.Proofs.Call.Exactness
import SigilCall.Proofs.Literal.Crossing

namespace SigilCall

open Text Literal

mutual

/-- The text before and after a place for an argument in a call, and the call that an argument there
makes. -/
inductive Encloses (mode : Quoting) : List Char → List Char → (Argument → Call) → Prop
  | call {name u before after : List Char} {fill : Argument → List Argument} : IsName name →
      IsSpaces u → EnclosesList mode before after fill →
      Encloses mode ('$' :: (name ++ (u ++ '(' :: before))) (after ++ [')'])
        fun a => ⟨String.ofList name, fill a⟩

inductive EnclosesList (mode : Quoting) :
    List Char → List Char → (Argument → List Argument) → Prop
  | only {before after : List Char} {fill : Argument → Argument} :
      EnclosesArgument mode before after fill → EnclosesList mode before after fun a => [fill a]
  | first {before after t : List Char} {fill : Argument → Argument} {args : List Argument} :
      EnclosesArgument mode before after fill → DerivesList mode t args →
      EnclosesList mode before (after ++ ',' :: t) fun a => fill a :: args
  | later {s before after : List Char} {b : Argument} {fill : Argument → List Argument} :
      DerivesArgument mode s b → EnclosesList mode before after fill →
      EnclosesList mode (s ++ ',' :: before) after fun a => b :: fill a

inductive EnclosesArgument (mode : Quoting) :
    List Char → List Char → (Argument → Argument) → Prop
  | here {u w : List Char} : IsSpaces u → IsSpaces w → EnclosesArgument mode u w fun a => a
  | within {u before after w : List Char} {fill : Argument → Call} : IsSpaces u →
      Encloses mode before after fill → IsSpaces w →
      EnclosesArgument mode (u ++ before) (after ++ w) fun a => (fill a).toArgument

end

mutual

theorem derives_of_encloses {mode : Quoting} {before after t : List Char} {fill : Argument → Call}
    {a : Argument} (h : Encloses mode before after fill) (ha : DerivesArgument mode t a) :
    Derives mode (before ++ (t ++ after)) (fill a) := by
  match h with
  | .call hn hu hl =>
      have := Derives.call hn hu (derivesList_of_encloses hl ha)
      simpa only [List.append_assoc, List.cons_append] using this

theorem derivesList_of_encloses {mode : Quoting} {before after t : List Char}
    {fill : Argument → List Argument} {a : Argument} (h : EnclosesList mode before after fill)
    (ha : DerivesArgument mode t a) : DerivesList mode (before ++ (t ++ after)) (fill a) := by
  match h with
  | .only hb => exact .one (derivesArgument_of_encloses hb ha)
  | .first hb hl =>
      have := DerivesList.more (derivesArgument_of_encloses hb ha) hl
      simpa only [List.append_assoc] using this
  | .later hb hl =>
      have := DerivesList.more hb (derivesList_of_encloses hl ha)
      simpa only [List.append_assoc, List.cons_append] using this

theorem derivesArgument_of_encloses {mode : Quoting} {before after t : List Char}
    {fill : Argument → Argument} {a : Argument} (h : EnclosesArgument mode before after fill)
    (ha : DerivesArgument mode t a) : DerivesArgument mode (before ++ (t ++ after)) (fill a) := by
  match h with
  | .here hu hw => exact derivesArgument_append hu ha hw
  | .within hu hc hw =>
      have := DerivesArgument.call hu (derives_of_encloses hc ha) hw
      simpa only [List.append_assoc] using this

end

variable {cfg : Config} {k : Kind} {mode : Quoting} {depth : Nat} {c : Cursor} {a : Argument}
  {v : Json} {t tail before after : List Char} {fill : Argument → Call}

theorem map_argument_of_scan (hk : t.head? = some k.opening)
    (hscan : Span.scan k cfg.quoting (t ++ tail) = ⟨t, tail, true⟩) (hv : Json.decode t = .ok v)
    (ha : Argument.ofJson? v = some a) (hc : c.rest = t ++ tail) :
    (Read.argument cfg depth c).map Reading.pair =
      ⟨[.spanScanned k c.pos (c.pos + byteLength t) true],
        .ok (a, ⟨c.pos + byteLength t, tail⟩)⟩ := by
  have hpeek : c.peek? = some k.opening := by
    obtain ⟨u, rfl⟩ := List.head?_eq_some_iff.mp hk
    rw [Cursor.peek?, hc]
    rfl
  have hliteral : ReadsArgument cfg depth c [spanEvent cfg.quoting k c]
      (.ok (a, c.skipSpan k cfg.quoting)) :=
    .literal hpeek (by rw [hc, hscan]; exact hv) ha
  have hread := map_argument_of_reads hliteral
  simpa only [spanEvent, Cursor.skipSpan, hc, hscan] using hread

/-- A JSON object or array is scanned as a whole, up to where its own brackets are closed, whatever
follows it. So wherever an argument may stand, in a text that is a call or not, what is read from
such a text is the value it is decoded as. -/
theorem literal_of_isValue (h : Json.IsValue mode t) (hk : t.head? = some k.opening)
    (tail : List Char) :
    Span.scan k mode (t ++ tail) = ⟨t, tail, true⟩ ∧
      (t.foldl (SpanState.step k mode) .start).depth = 0 ∧
      (∀ c : Cursor, c.rest = t ++ tail → c.skipSpan k mode = ⟨c.pos + byteLength t, tail⟩) ∧
      ∀ v, Json.decode t = .ok v → ∃ a, Argument.ofJson? v = some a ∧
        (∀ (cfg : Config) (depth : Nat) (c : Cursor), cfg.quoting = mode → c.rest = t ++ tail →
          (Read.argument cfg depth c).map Reading.pair =
            ⟨[.spanScanned k c.pos (c.pos + byteLength t) true],
              .ok (a, ⟨c.pos + byteLength t, tail⟩)⟩) ∧
        ∀ (cfg : Config) (before after : List Char) (fill : Argument → Call),
          cfg.quoting = mode → Encloses mode before after fill →
          (fill a).depth ≤ cfg.maxDepth →
          cfg.leadingCall (String.ofList ((before ++ (t ++ after)) ++ tail)) =
            .ok (fill a, byteLength (before ++ (t ++ after))) := by
  have hscan := scan_of_isValue h hk
  have hnil := hscan []
  rw [List.append_nil] at hnil
  refine ⟨hscan tail, ?_, ?_, ?_⟩
  · have hclosed : (Span.scan k mode t).closed = true := by rw [hnil]
    have hdepth : ((Span.scan k mode t).text.foldl (SpanState.step k mode) .start).depth = 0 :=
      Span.closed_iff_depth.mp hclosed
    rwa [hnil] at hdepth
  · intro c hc
    rw [Cursor.skipSpan, hc, hscan tail]
  · intro v hv
    obtain ⟨a, ha⟩ := Argument.exists_ofJson?_of_decode hv hk
    refine ⟨a, ha, ?_, ?_⟩
    · intro cfg depth c hm hc
      subst hm
      exact map_argument_of_scan hk (hscan tail) hv ha hc
    · intro cfg before after fill hm hf hd
      subst hm
      have hl : IsLiteral k cfg.quoting t := ((scan_eq_iff hk).mp hnil).2
      have harg := DerivesArgument.literal isSpaces_nil hl hv ha isSpaces_nil
      rw [List.append_nil, List.nil_append] at harg
      rw [Config.leadingCall, run_eq_ok_iff_derives]
      exact ⟨[], _, tail, String.toList_ofList, rfl, isSpaces_nil, derives_of_encloses hf harg, hd⟩

/-- A string with a bracket and an escaped quotation mark, inside the second of two calls. -/
theorem literal_of_isValue_nested :
    let t := ['[', '"', ']', '\\', '"', '"', ',', '{', '}', ']']
    let v : Json := .array [.string "]\"", .object []]
    let before := ['$', 'f', '(', 'x', ',', '$', '(', ' ']
    let fill := fun a => (⟨"f", [.raw "x", .call "" [a]]⟩ : Call)
    Json.IsValue .escaped t ∧ t.head? = some Kind.array.opening ∧ Json.decode t = .ok v ∧
      Encloses .escaped before [')', ')'] fill ∧
      Config.leadingCall ⟨2, .escaped⟩ (.ofList ((before ++ (t ++ [')', ')'])) ++ [']'])) =
        .ok (fill (.array [.string "]\"", .object []]), 20) := by
  intro t v before fill
  have hnil := Json.Read.isBlank_nil
  have hchars : Json.WritesChars [']', '\\', '"'] [']', '"'] :=
    .cons (.plain (by decide) (by decide) (by decide)) (.cons (.escape rfl) .nil)
  have hwrites : Json.Writes Json.maxLevels t v :=
    .array (.more (.mk hnil (.string hchars) hnil) (.one (.mk hnil (.emptyObject hnil) hnil)))
  have hspace : IsSpaces [' '] := List.all_eq_true.mp rfl
  have hvalue := Json.isValue_of_writes hwrites
  have hdecode := Json.decode_of_writes hwrites
  have hraw : IsRaw ['x'] := by
    refine ⟨List.all_eq_true.mp rfl, ?_⟩
    rintro y ⟨⟩ (h | h) <;> cases h
  have hname : IsName [] := List.all_eq_true.mp rfl
  have hname' : IsName ['f'] := List.all_eq_true.mp rfl
  have hslot : EnclosesList .escaped [' '] [] fun a => [a] := .only (.here hspace isSpaces_nil)
  have hinner : Encloses .escaped ['$', '(', ' '] [')'] fun a => ⟨"", [a]⟩ :=
    .call hname isSpaces_nil hslot
  have houter : EnclosesList .escaped ['x', ',', '$', '(', ' '] [')'] fun a =>
      [.raw "x", .call "" [a]] :=
    .later (.raw hraw) (.only (.within isSpaces_nil hinner isSpaces_nil))
  have hencloses : Encloses .escaped before [')', ')'] fill :=
    .call hname' isSpaces_nil houter
  refine ⟨hvalue, rfl, hdecode, hencloses, ?_⟩
  obtain ⟨-, -, -, h⟩ := literal_of_isValue hvalue (k := .array) rfl [']']
  obtain ⟨a, ha, -, hrun⟩ := h v hdecode
  cases ha
  exact hrun ⟨2, .escaped⟩ before [')', ')'] fill rfl hencloses (by decide)

end SigilCall
