import SigilCall.Proofs.Json.Decode
import SigilCall.Proofs.Rules

namespace SigilCall

open Text Literal

namespace Run

variable {α β γ : Type}

theorem map_bind (g : β → γ) (r : Run α) (f : α → Run β) : (r >>= f).map g = r >>= fun a => (f a).map g := by
  obtain ⟨es, x | a⟩ := r <;> rfl

theorem bind_map (g : α → β) (r : Run α) (f : β → Run γ) : (r.map g) >>= f = r >>= fun a => f (g a) := by
  obtain ⟨es, x | a⟩ := r <;> rfl

end Run

def Reading.pair {α : Type} {c : Cursor} (r : Reading α c) : α × Cursor := (r.value, r.stop)

variable {cfg : Config} {depth : Nat} {c d b e : Cursor}

namespace Read

theorem call_tooDeep (h : cfg.maxDepth < depth) :
    call cfg depth c = .fail (.tooDeep cfg.maxDepth c.skipSpace.pos) := by
  rw [call, if_pos h]

theorem call_noSigil (h : depth ≤ cfg.maxDepth) (hs : c.skipSpace.peek? ≠ some '$') :
    call cfg depth c = .fail (.missing .sigil c.skipSpace.pos) := by
  rw [call, if_neg (Nat.not_lt.mpr h)]
  split
  · rfl
  · next b hb =>
      rw [Cursor.accept?_eq_none_iff.mpr hs] at hb
      cases hb

theorem call_noOpening (h : depth ≤ cfg.maxDepth) (hb : c.skipSpace.Passes ['$'] b)
    (ho : b.skipName.peek? ≠ some '(') :
    call cfg depth c =
      ⟨[.nameRead b.name depth b.pos], .error (.missing .opening b.skipName.pos)⟩ := by
  rw [call, if_neg (Nat.not_lt.mpr h)]
  split
  · next hn =>
      rw [Cursor.accept?_eq_some_iff.mpr hb] at hn
      cases hn
  · next b' hb' =>
      rw [Cursor.accept?_eq_some_iff.mpr hb] at hb'
      cases hb'
      simp only [Run.emit_bind]
      split
      · rfl
      · next e he =>
          rw [Cursor.skipName, ← Cursor.accept?_eq_none_iff] at ho
          rw [ho] at he
          cases he

theorem map_call (h : depth ≤ cfg.maxDepth) (ho : Opens c b e) :
    (call cfg depth c).map Reading.pair = do
      .emit (.nameRead b.name depth b.pos)
      let (args, f) ← (arguments cfg depth e).map Reading.pair
      match f.skipSpace.accept? ')' with
      | none => .fail (.missing .closing f.skipSpace.pos)
      | some g => return (⟨b.name, args⟩, g) := by
  rw [call, if_neg (Nat.not_lt.mpr h)]
  split
  · next hn =>
      rw [Cursor.accept?_eq_some_iff.mpr ho.sigil] at hn
      cases hn
  · next b' hb' =>
      rw [Cursor.accept?_eq_some_iff.mpr ho.sigil] at hb'
      cases hb'
      rw [Run.map_bind]
      congr 1
      funext _
      dsimp only
      split
      · next hn =>
          have hp := ho.parenthesis
          rw [Cursor.skipName, ← Cursor.accept?_eq_some_iff, hn] at hp
          cases hp
      · next e' he' =>
          have hp := ho.parenthesis
          rw [Cursor.skipName, ← Cursor.accept?_eq_some_iff, he'] at hp
          cases hp
          rw [Run.map_bind, Run.bind_map]
          congr 1
          funext args
          dsimp only [Reading.pair]
          split
          · next hn =>
              simp only [hn]
              rfl
          · next g hg =>
              simp only [hg]
              rfl

theorem map_arguments :
    (arguments cfg depth c).map Reading.pair = do
      let (a, d) ← (argument cfg depth c.skipSpace).map Reading.pair
      match d.skipSpace.accept? ',' with
      | none => return ([a], d.skipSpace)
      | some e =>
          let (args, f) ← (arguments cfg depth e).map Reading.pair
          return (a :: args, f) := by
  rw [arguments, Run.map_bind, Run.bind_map]
  congr 1
  funext a
  dsimp only [Reading.pair]
  split
  · next hn =>
      rw [hn]
      rfl
  · next e he =>
      simp only [he, Run.bind_map]
      obtain ⟨es, x | r⟩ := arguments cfg depth e
      · rfl
      · simp [Reading.pair, Reading.since, Reading.map]

theorem map_argument_call (h : c.peek? = some '$') :
    (argument cfg depth c).map Reading.pair =
      ((call cfg (depth + 1) c).map Reading.pair).map (Prod.map Call.toArgument id) := by
  rw [argument]
  split
  · next hn =>
      rw [h] at hn
      cases hn
  · next x hx =>
      rw [h] at hx
      cases hx
      rw [if_pos rfl]
      obtain ⟨es, y | r⟩ := call cfg (depth + 1) c <;> rfl

theorem argument_literal {k : Kind} (h : c.peek? = some k.opening) :
    argument cfg depth c = literal cfg.quoting k c := by
  rw [argument]
  split
  · next hn =>
      rw [h] at hn
      cases hn
  · next x hx =>
      rw [h] at hx
      cases hx
      rw [if_neg k.opening_ne_dollar, Kind.ofOpening?_eq_some_iff.mpr rfl]

theorem argument_raw (h : c.IsPlain) : argument cfg depth c = raw c := by
  rw [argument]
  split
  · rfl
  · next x hx => rw [if_neg (h x hx).1, (h x hx).2]

end Read

/-- Only blanks can follow a literal in a text that starts with its bracket and is decoded. -/
theorem exists_writes_of_decode {k : Kind} {t : List Char} {v : Json} (h : Json.decode t = .ok v)
    (hk : t.head? = some k.opening) :
    ∃ s b, t = s ++ b ∧ s.head? = some k.opening ∧ Json.Writes Json.maxLevels s v ∧
      Json.IsBlank b := by
  obtain ⟨b, s, b', rfl, hb, hw, hb'⟩ := Json.decode_eq_ok_iff.mp h
  cases b with
  | nil =>
      obtain ⟨x, t, rfl, -⟩ := Json.Read.exists_cons_of_writes hw
      exact ⟨x :: t, b', rfl, hk, hw, hb'⟩
  | cons x b =>
      obtain rfl : x = k.opening := Option.some.inj hk
      have hblank := hb k.opening (by simp)
      cases k <;> cases hblank

/-- The bracket that a text starts with tells what is decoded from it. -/
theorem exists_eq_of_decode {k : Kind} {t : List Char} {v : Json} (h : Json.decode t = .ok v)
    (hk : t.head? = some k.opening) :
    (k = .object ∧ ∃ es, v = .object es) ∨ (k = .array ∧ ∃ vs, v = .array vs) := by
  obtain ⟨s, b, -, hs, hw, -⟩ := exists_writes_of_decode h hk
  cases hw with
  | emptyObject | object => exact .inl ⟨Kind.opening_injective (Option.some.inj hs).symm, _, rfl⟩
  | emptyArray | array => exact .inr ⟨Kind.opening_injective (Option.some.inj hs).symm, _, rfl⟩
  | number hn _ =>
      obtain ⟨x, t, rfl, hx⟩ := Json.Read.exists_cons_of_writesNumeral hn
      obtain rfl : x = k.opening := Option.some.inj hs
      cases k <;> rcases hx with hx | hx <;> cases hx
  | _ => cases k <;> cases hs

theorem Argument.exists_ofJson?_of_decode {k : Kind} {t : List Char} {v : Json}
    (h : Json.decode t = .ok v) (hk : t.head? = some k.opening) :
    ∃ a, Argument.ofJson? v = some a := by
  rcases exists_eq_of_decode h hk with ⟨-, es, rfl⟩ | ⟨-, vs, rfl⟩
  · exact ⟨_, rfl⟩
  · exact ⟨_, rfl⟩

theorem head?_scan {k : Kind} {mode : Quoting} {s : List Char} (h : s.head? = some k.opening) :
    (Span.scan k mode s).text.head? = some k.opening := by
  cases s with
  | nil => cases h
  | cons x s =>
      rw [Span.scan, Span.scanFrom]
      split <;> exact h

mutual

theorem map_call_of_reads {cfg : Config} {depth : Nat} {c : Cursor} {es : List Event}
    {o : Except CallError (Call × Cursor)} (h : ReadsCall cfg depth c es o) :
    (Read.call cfg depth c).map Reading.pair = ⟨es, o⟩ := by
  match h with
  | .tooDeep hd =>
      rw [Read.call_tooDeep hd]
      rfl
  | .noSigil hd hs =>
      rw [Read.call_noSigil hd hs]
      rfl
  | .noOpening hd hb hs =>
      rw [Read.call_noOpening hd hb hs]
      rfl
  | .badArguments hd ho hl =>
      rw [Read.map_call hd ho, map_arguments_of_reads hl]
      rfl
  | .noClosing hd ho hl hs =>
      rw [Read.map_call hd ho, map_arguments_of_reads hl]
      simp [Cursor.accept?_eq_none_iff.mpr hs]
  | .call hd ho hl hp =>
      rw [Read.map_call hd ho, map_arguments_of_reads hl]
      simp [Cursor.accept?_eq_some_iff.mpr hp]

theorem map_arguments_of_reads {cfg : Config} {depth : Nat} {c : Cursor} {es : List Event}
    {o : Except CallError (List Argument × Cursor)} (h : ReadsList cfg depth c es o) :
    (Read.arguments cfg depth c).map Reading.pair = ⟨es, o⟩ := by
  match h with
  | .badFirst ha =>
      rw [Read.map_arguments, map_argument_of_reads ha]
      rfl
  | .last ha hs =>
      rw [Read.map_arguments, map_argument_of_reads ha]
      simp [Cursor.accept?_eq_none_iff.mpr hs]
  | .badRest ha hp hl =>
      rw [Read.map_arguments, map_argument_of_reads ha]
      simp [Cursor.accept?_eq_some_iff.mpr hp, map_arguments_of_reads hl]
  | .more ha hp hl =>
      rw [Read.map_arguments, map_argument_of_reads ha]
      simp [Cursor.accept?_eq_some_iff.mpr hp, map_arguments_of_reads hl]

theorem map_argument_of_reads {cfg : Config} {depth : Nat} {c : Cursor} {es : List Event}
    {o : Except CallError (Argument × Cursor)} (h : ReadsArgument cfg depth c es o) :
    (Read.argument cfg depth c).map Reading.pair = ⟨es, o⟩ := by
  match h with
  | .badCall hs hc =>
      rw [Read.map_argument_call hs, map_call_of_reads hc]
      rfl
  | .call hs hc =>
      rw [Read.map_argument_call hs, map_call_of_reads hc]
      rfl
  | .badLiteral hk hx =>
      rw [Read.argument_literal hk, Read.literal]
      simp only [hx]
      rfl
  | .literal hk hv ha =>
      rw [Read.argument_literal hk, Read.literal]
      simp only [hv, ha]
      rfl
  | .raw hp =>
      rw [Read.argument_raw hp]
      rfl

end

/-- Beyond the limit nothing is read. -/
theorem ReadsCall.eq_of_lt {es : List Event} {o : Except CallError (Call × Cursor)}
    (h : ReadsCall cfg depth c es o) (hd : cfg.maxDepth < depth) :
    es = [] ∧ o = .error (.tooDeep cfg.maxDepth c.skipSpace.pos) := by
  cases h with
  | tooDeep => exact ⟨rfl, rfl⟩
  | noSigil hd' | noOpening hd' | badArguments hd' | noClosing hd' | call hd' =>
      exact absurd hd (Nat.not_lt.mpr hd')

theorem ReadsArgument.unique {o o' : Except CallError (Argument × Cursor)}
    (h : ReadsArgument cfg depth c es o) (h' : ReadsArgument cfg depth c es' o') : o = o' :=
  congrArg Run.result ((map_argument_of_reads h).symm.trans (map_argument_of_reads h'))

def Run.Obeys {α : Type} (rule : List Event → Except CallError α → Prop) (r : Run α) : Prop :=
  rule r.events r.result

theorem obeys_arguments (ha : Run.Obeys (ReadsArgument cfg depth c.skipSpace)
      ((Read.argument cfg depth c.skipSpace).map Reading.pair))
    (hl : ∀ a d e, ((Read.argument cfg depth c.skipSpace).map Reading.pair).result = .ok (a, d) →
      d.skipSpace.Passes [','] e →
      Run.Obeys (ReadsList cfg depth e) ((Read.arguments cfg depth e).map Reading.pair)) :
    Run.Obeys (ReadsList cfg depth c) ((Read.arguments cfg depth c).map Reading.pair) := by
  rw [Read.map_arguments]
  generalize (Read.argument cfg depth c.skipSpace).map Reading.pair = r at ha hl ⊢
  obtain ⟨es, x | ⟨a, d⟩⟩ := r
  · exact .badFirst ha
  · simp only [Run.bind_ok]
    cases he : d.skipSpace.accept? ',' with
    | none =>
        simpa [Run.Obeys] using ReadsList.last ha (Cursor.accept?_eq_none_iff.mp he)
    | some e =>
        have hp := Cursor.accept?_eq_some_iff.mp he
        have hl := hl a d e rfl hp
        dsimp only
        generalize (Read.arguments cfg depth e).map Reading.pair = r at hl ⊢
        obtain ⟨es', x | ⟨args, f⟩⟩ := r
        · exact .badRest ha hp hl
        · simpa [Run.Obeys] using ReadsList.more ha hp hl

theorem obeys_call (hd : depth ≤ cfg.maxDepth)
    (hl : ∀ b e, Opens c b e →
      Run.Obeys (ReadsList cfg depth e) ((Read.arguments cfg depth e).map Reading.pair)) :
    Run.Obeys (ReadsCall cfg depth c) ((Read.call cfg depth c).map Reading.pair) := by
  cases hb : c.skipSpace.accept? '$' with
  | none =>
      have hs := Cursor.accept?_eq_none_iff.mp hb
      rw [Read.call_noSigil hd hs]
      exact .noSigil hd hs
  | some b =>
      have hb := Cursor.accept?_eq_some_iff.mp hb
      cases he : b.skipName.accept? '(' with
      | none =>
          have hs := Cursor.accept?_eq_none_iff.mp he
          rw [Read.call_noOpening hd hb hs]
          exact .noOpening hd hb hs
      | some e =>
          have ho : Opens c b e := ⟨hb, Cursor.accept?_eq_some_iff.mp he⟩
          have hl := hl b e ho
          rw [Read.map_call hd ho]
          generalize (Read.arguments cfg depth e).map Reading.pair = r at hl ⊢
          obtain ⟨es, x | ⟨args, f⟩⟩ := r
          · exact .badArguments hd ho hl
          · simp only [Run.emit_bind, Run.bind_ok]
            cases hg : f.skipSpace.accept? ')' with
            | none =>
                simpa [Run.Obeys] using
                  ReadsCall.noClosing hd ho hl (Cursor.accept?_eq_none_iff.mp hg)
            | some g =>
                simpa [Run.Obeys] using ReadsCall.call hd ho hl (Cursor.accept?_eq_some_iff.mp hg)

theorem obeys_argument_call (hs : c.peek? = some '$')
    (hc : Run.Obeys (ReadsCall cfg (depth + 1) c) ((Read.call cfg (depth + 1) c).map Reading.pair)) :
    Run.Obeys (ReadsArgument cfg depth c) ((Read.argument cfg depth c).map Reading.pair) := by
  rw [Read.map_argument_call hs]
  generalize (Read.call cfg (depth + 1) c).map Reading.pair = r at hc ⊢
  obtain ⟨es, x | ⟨v, d⟩⟩ := r
  · exact .badCall hs hc
  · exact .call hs hc

theorem obeys_argument_literal {k : Kind} (hk : c.peek? = some k.opening) :
    Run.Obeys (ReadsArgument cfg depth c) ((Read.argument cfg depth c).map Reading.pair) := by
  rw [Read.argument_literal hk, Read.literal]
  cases hv : Json.decode (Span.scan k cfg.quoting c.rest).text with
  | error x =>
      exact .badLiteral hk hv
  | ok v =>
      obtain ⟨a, ha⟩ := Argument.exists_ofJson?_of_decode hv (head?_scan hk)
      simp only [ha]
      exact .literal hk hv ha

theorem obeys_argument_raw (h : c.IsPlain) :
    Run.Obeys (ReadsArgument cfg depth c) ((Read.argument cfg depth c).map Reading.pair) := by
  rw [Read.argument_raw h]
  exact .raw h

theorem obeys_rules (cfg : Config) :
    (∀ depth c, Run.Obeys (ReadsCall cfg depth c) ((Read.call cfg depth c).map Reading.pair)) ∧
    (∀ depth c, Run.Obeys (ReadsList cfg depth c) ((Read.arguments cfg depth c).map Reading.pair)) ∧
    ∀ depth c, Run.Obeys (ReadsArgument cfg depth c) ((Read.argument cfg depth c).map Reading.pair) := by
  apply Read.call.mutual_induct cfg
  · intro depth c h
    rw [Read.call_tooDeep h]
    exact .tooDeep h
  · intro depth c a h ha
    apply obeys_call (Nat.le_of_not_lt h)
    intro b e ho
    have hb := Cursor.accept?_eq_some_iff.mpr ho.sigil
    rw [ha] at hb
    cases hb
  · intro depth c a h b hb ih
    apply obeys_call (Nat.le_of_not_lt h)
    intro b' e ho
    have hb' := Cursor.accept?_eq_some_iff.mpr ho.sigil
    rw [hb] at hb'
    cases hb'
    exact ih e (Cursor.accept?_eq_some_iff.mpr ho.parenthesis)
  · intro depth c ha hl
    apply obeys_arguments ha
    intro a d e hr hp
    obtain ⟨r, -, hr⟩ := Except.map_eq_ok_iff.mp hr
    cases hr
    exact hl r e (Cursor.accept?_eq_some_iff.mpr hp)
  · intro depth c h
    exact obeys_argument_raw (by simp [Cursor.IsPlain, h])
  · intro depth c h ih
    exact obeys_argument_call h ih
  · intro depth c x h hne k hk
    obtain rfl := Kind.ofOpening?_eq_some_iff.mp hk
    exact obeys_argument_literal h
  · intro depth c x h hne hn
    apply obeys_argument_raw
    intro y hy
    rw [h] at hy
    cases hy
    exact ⟨hne, hn⟩

/-- The rules describe all that the reading of a call does. -/
theorem readsCall_iff {es : List Event} {o : Except CallError (Call × Cursor)} :
    ReadsCall cfg depth c es o ↔ (Read.call cfg depth c).map Reading.pair = ⟨es, o⟩ := by
  refine ⟨map_call_of_reads, fun h => ?_⟩
  have := (obeys_rules cfg).1 depth c
  rwa [h] at this

@[simp] theorem leadingCall_ofList (cfg : Config) (s : List Char) :
    cfg.leadingCall (.ofList s) = (cfg.run s).result := by
  rw [Config.leadingCall, String.toList_ofList]

theorem run_eq_ok_iff_reads {s : List Char} {v : Call} {n : Nat} :
    (cfg.run s).result = .ok (v, n) ↔
      ∃ es g, ReadsCall cfg 1 (.start s) es (.ok (v, g)) ∧ g.pos = n := by
  simp only [readsCall_iff]
  rw [Config.run]
  generalize Read.call cfg 1 (.start s) = r
  obtain ⟨es, x | r⟩ := r
  · simp
  · simp [Reading.pair, and_assoc]

theorem run_eq_error_iff_reads {s : List Char} {x : CallError} :
    (cfg.run s).result = .error x ↔ ∃ es, ReadsCall cfg 1 (.start s) es (.error x) := by
  simp only [readsCall_iff]
  rw [Config.run]
  generalize Read.call cfg 1 (.start s) = r
  obtain ⟨es, y | r⟩ := r <;> simp

theorem result_run_of_reads {s : List Char} {es : List Event}
    {o : Except CallError (Call × Cursor)} (h : ReadsCall cfg 1 (.start s) es o) :
    (cfg.run s).result = o.map (Prod.map id Cursor.pos) := by
  match o with
  | .error x => exact run_eq_error_iff_reads.mpr ⟨es, h⟩
  | .ok (v, g) => exact run_eq_ok_iff_reads.mpr ⟨es, g, h, rfl⟩

def outcomeEvent : Except CallError (Call × Cursor) → Event
  | .error x => .failed x
  | .ok (v, g) => .finished v.name v.args.length g.pos

@[simp] theorem level_outcomeEvent (o : Except CallError (Call × Cursor)) :
    (outcomeEvent o).level = .debug := by
  cases o <;> rfl

theorem events_run_of_reads {s : List Char} {es : List Event}
    {o : Except CallError (Call × Cursor)} (h : ReadsCall cfg 1 (.start s) es o) :
    (cfg.run s).events = es ++ [outcomeEvent o] := by
  have hread := readsCall_iff.mp h
  rw [Config.run]
  generalize Read.call cfg 1 (.start s) = r at hread
  obtain ⟨es', x | r⟩ := r <;> cases hread <;> rfl

end SigilCall
