import SigilCall.Proofs.Call.Exactness
import SigilCall.Proofs.Call.Nodes

namespace SigilCall

open Text Literal

def Cursor.shift (n : Nat) (c : Cursor) : Cursor := ⟨n + c.pos, c.rest⟩

def CallError.shift (n : Nat) : CallError → CallError
  | missing expected m => missing expected (n + m)
  | badLiteral k m e => badLiteral k (n + m) e
  | tooDeep limit m => tooDeep limit (n + m)

def Event.shift (n : Nat) : Event → Event
  | nameRead name depth offset => nameRead name depth (n + offset)
  | rawRead text stop => rawRead text (n + stop)
  | spanScanned k start stop closed => spanScanned k (n + start) (n + stop) closed
  | finished name args stop => finished name args (n + stop)
  | failed e => failed (e.shift n)

def shiftOutcome {α : Type} (n : Nat) (f : α → α) : Except CallError α → Except CallError α
  | .error x => .error (x.shift n)
  | .ok a => .ok (f a)

def Run.shift {α : Type} (n : Nat) (f : α → α) (r : Run α) : Run α :=
  ⟨r.events.map (Event.shift n), shiftOutcome n f r.result⟩

variable {α : Type} {cfg : Config} {depth : Nat} {c d b e : Cursor} {s t w : List Char}
  {es : List Event}

namespace Cursor

@[simp] theorem shift_skipWhile (n : Nat) (p : Char → Bool) (c : Cursor) :
    (c.shift n).skipWhile p = (c.skipWhile p).shift n := by
  rw [skipWhile, shift, Nat.add_assoc]
  rfl

@[simp] theorem shift_skipSpace (n : Nat) (c : Cursor) : (c.shift n).skipSpace = c.skipSpace.shift n :=
  shift_skipWhile n isSpace c

@[simp] theorem shift_skipName (n : Nat) (b : Cursor) : (b.shift n).skipName = b.skipName.shift n := by
  rw [skipName, shift_skipWhile, shift_skipSpace]
  rfl

@[simp] theorem shift_skipSpan (n : Nat) (k : Kind) (mode : Quoting) (c : Cursor) :
    (c.shift n).skipSpan k mode = (c.skipSpan k mode).shift n := by
  rw [skipSpan, shift, Nat.add_assoc]
  rfl

theorem Passes.shift (h : c.Passes t d) (n : Nat) : (c.shift n).Passes t (d.shift n) := by
  refine ⟨h.1, ?_⟩
  rw [Cursor.shift, h.2, ← Nat.add_assoc]
  rfl

theorem skip_start (u s : List Char) :
    (start (u ++ s)).skip u.length = (start s).shift (byteLength u) := by
  rw [skip, start, List.take_left, List.drop_left, Nat.zero_add]
  rfl

theorem Passes.shift_skipSpace (h : c.skipSpace.Passes t d) (n : Nat) :
    (c.shift n).skipSpace.Passes t (d.shift n) := by
  rw [Cursor.shift_skipSpace]
  exact h.shift n

end Cursor

theorem Opens.shift (h : Opens c b e) (n : Nat) : Opens (c.shift n) (b.shift n) (e.shift n) := by
  refine ⟨h.sigil.shift_skipSpace n, ?_⟩
  rw [Cursor.shift_skipName]
  exact h.parenthesis.shift n

@[simp] theorem shift_spanEvent (n : Nat) (mode : Quoting) (k : Kind) (c : Cursor) :
    (spanEvent mode k c).shift n = spanEvent mode k (c.shift n) := by
  rw [spanEvent, spanEvent, Cursor.shift_skipSpan]
  rfl

@[simp] theorem shift_rawEvent (n : Nat) (c : Cursor) : (rawEvent c).shift n = rawEvent (c.shift n) := by
  rw [rawEvent, rawEvent, Cursor.skipRaw, Cursor.shift_skipWhile]
  rfl

def shiftStop (n : Nat) : Except CallError (α × Cursor) → Except CallError (α × Cursor) :=
  shiftOutcome n (Prod.map id (Cursor.shift n))

mutual

theorem readsCall_shift {cfg : Config} {depth : Nat} {c : Cursor} {es : List Event}
    {o : Except CallError (Call × Cursor)} (h : ReadsCall cfg depth c es o) (n : Nat) :
    ReadsCall cfg depth (c.shift n) (es.map (Event.shift n)) (shiftStop n o) := by
  match h with
  | .tooDeep hd =>
      have := ReadsCall.tooDeep (c := c.shift n) hd
      rwa [Cursor.shift_skipSpace] at this
  | .noSigil hd hs =>
      have := ReadsCall.noSigil (c := c.shift n) hd (by rwa [Cursor.shift_skipSpace])
      rwa [Cursor.shift_skipSpace] at this
  | .noOpening hd hb hs =>
      have := ReadsCall.noOpening hd (hb.shift_skipSpace n) (by rwa [Cursor.shift_skipName])
      rwa [Cursor.shift_skipName] at this
  | .badArguments hd ho hl => exact .badArguments hd (ho.shift n) (readsList_shift hl n)
  | .noClosing hd ho hl hs =>
      have := ReadsCall.noClosing hd (ho.shift n) (readsList_shift hl n)
        (by rwa [Cursor.shift_skipSpace])
      rwa [Cursor.shift_skipSpace] at this
  | .call hd ho hl hg =>
      exact .call hd (ho.shift n) (readsList_shift hl n) (hg.shift_skipSpace n)

theorem readsList_shift {cfg : Config} {depth : Nat} {c : Cursor} {es : List Event}
    {o : Except CallError (List Argument × Cursor)} (h : ReadsList cfg depth c es o) (n : Nat) :
    ReadsList cfg depth (c.shift n) (es.map (Event.shift n)) (shiftStop n o) := by
  match h with
  | .badFirst ha =>
      apply ReadsList.badFirst
      rw [Cursor.shift_skipSpace]
      exact readsArgument_shift ha n
  | .last ha hs =>
      have ha' := readsArgument_shift ha n
      rw [← Cursor.shift_skipSpace] at ha'
      have := ReadsList.last ha' (by rwa [Cursor.shift_skipSpace])
      rwa [Cursor.shift_skipSpace] at this
  | .badRest ha he hl =>
      have ha' := readsArgument_shift ha n
      rw [← Cursor.shift_skipSpace] at ha'
      rw [List.map_append]
      exact .badRest ha' (he.shift_skipSpace n) (readsList_shift hl n)
  | .more ha he hl =>
      have ha' := readsArgument_shift ha n
      rw [← Cursor.shift_skipSpace] at ha'
      rw [List.map_append]
      exact .more ha' (he.shift_skipSpace n) (readsList_shift hl n)

theorem readsArgument_shift {cfg : Config} {depth : Nat} {c : Cursor} {es : List Event}
    {o : Except CallError (Argument × Cursor)} (h : ReadsArgument cfg depth c es o) (n : Nat) :
    ReadsArgument cfg depth (c.shift n) (es.map (Event.shift n)) (shiftStop n o) := by
  match h with
  | .badCall hs hc => exact .badCall hs (readsCall_shift hc n)
  | .call hs hc => exact .call hs (readsCall_shift hc n)
  | .badLiteral hk hx =>
      rw [List.map_singleton, shift_spanEvent]
      exact .badLiteral (c := c.shift n) hk hx
  | .literal hk hv ha =>
      have hread : ReadsArgument cfg depth (c.shift n) _ _ := .literal hk hv ha
      rwa [Cursor.shift_skipSpan, ← shift_spanEvent] at hread
  | .raw hp =>
      have hread : ReadsArgument cfg depth (c.shift n) _ _ := .raw hp
      rwa [← shift_rawEvent, Cursor.skipRaw, Cursor.shift_skipWhile] at hread

end

theorem readsCall_of_skipSpace {o : Except CallError (Call × Cursor)}
    (h : ReadsCall cfg depth c es o) (hd : d.skipSpace = c.skipSpace) :
    ReadsCall cfg depth d es o := by
  cases h with
  | tooDeep hdepth => exact hd ▸ .tooDeep hdepth
  | noSigil hdepth hs => exact hd ▸ .noSigil hdepth (hd ▸ hs)
  | noOpening hdepth hb hs => exact .noOpening hdepth (hd ▸ hb) hs
  | badArguments hdepth ho hl => exact .badArguments hdepth ⟨hd ▸ ho.sigil, ho.parenthesis⟩ hl
  | noClosing hdepth ho hl hs => exact .noClosing hdepth ⟨hd ▸ ho.sigil, ho.parenthesis⟩ hl hs
  | call hdepth ho hl hg => exact .call hdepth ⟨hd ▸ ho.sigil, ho.parenthesis⟩ hl hg

theorem map_call_shift (cfg : Config) (depth n : Nat) (c : Cursor) :
    (Read.call cfg depth (c.shift n)).map Reading.pair =
      ((Read.call cfg depth c).map Reading.pair).shift n (Prod.map id (Cursor.shift n)) :=
  map_call_of_reads (readsCall_shift ((obeys_rules cfg).1 depth c) n)

theorem run_of_reads {o : Except CallError (Call × Cursor)}
    (h : ReadsCall cfg 1 (.start s) es o) :
    cfg.run s = ⟨es ++ [outcomeEvent o], o.map (Prod.map id Cursor.pos)⟩ := by
  rw [← events_run_of_reads h, ← result_run_of_reads h]

/-- Blanks before a text move what is read from it, and that is all. -/
theorem run_append_left (cfg : Config) (hw : IsSpaces w) (s : List Char) :
    cfg.run (w ++ s) = (cfg.run s).shift (byteLength w) (Prod.map id (byteLength w + ·)) := by
  have hpasses : (Cursor.start (w ++ s)).Passes w ((Cursor.start s).shift (byteLength w)) :=
    Cursor.passes_start w s
  have h := (obeys_rules cfg).1 1 (.start s)
  generalize (Read.call cfg 1 (.start s)).map Reading.pair = r at h
  obtain ⟨es, o⟩ := r
  have h' := readsCall_of_skipSpace (readsCall_shift h (byteLength w))
    (Cursor.skipSpace_eq_of_passes hpasses hw)
  rw [run_of_reads h', run_of_reads h, Run.shift, List.map_append]
  cases o <;> rfl

/-- A call in a tree, of whose name an event tells, is also what is read from its own `$` on,
whatever follows its text. -/
def Config.StandsAlone (cfg : Config) (text : List Char) (x : Nat × Argument) (y : Event) : Prop :=
  ∀ v : Call, x.2 = v.toArgument → ∃ m t r, y = .nameRead v.name x.1 (m + 1) ∧
    dropBytes? text m = some (t ++ r) ∧ t.head? = some '$' ∧
    ∀ r', cfg.leadingCall (.ofList (t ++ r')) = .ok (v, byteLength t)

theorem standsAlone_of_reads {text : List Char} {v : Call} {g : Cursor} (hc : .start text ≤ c)
    (hb : c.skipSpace.Passes ['$'] b) (h : ReadsCall cfg depth c es (.ok (v, g)))
    (hdepth : 1 ≤ depth) :
    ∃ m t r, b.pos = m + 1 ∧ dropBytes? text m = some (t ++ r) ∧ t.head? = some '$' ∧
      ∀ r', cfg.leadingCall (.ofList (t ++ r')) = .ok (v, byteLength t) := by
  have hread := readsCall_of_skipSpace h (Cursor.skipSpace_skipSpace c)
  obtain ⟨u, t, hp, hu, ht, hd⟩ := callSound_of_reads hread v g rfl
  have hrest := Cursor.dropBytes?_of_le (Cursor.le_trans hc c.le_skipSpace)
  have hsigil : Halts isSpace (u ++ (t ++ g.rest)) := by
    rw [← List.append_assoc, ← hp.1, hb.1]
    exact halts_cons.mpr rfl
  obtain rfl := eq_nil_of_isSpaces hu hsigil
  rw [hp.1] at hrest
  refine ⟨c.skipSpace.pos, t, g.rest, hb.2, hrest, head?_of_derives ht, fun r' => ?_⟩
  rw [leadingCall_ofList]
  exact run_eq_ok_iff_derives.mpr ⟨[], t, r', rfl, rfl, isSpaces_nil, ht, by omega⟩

theorem Call.eq_of_toArgument {v : Call} {name : String} {args : List Argument}
    (h : .call name args = v.toArgument) : v = ⟨name, args⟩ := by
  cases v
  cases h
  rfl

theorem standsAlone_of_heads {text : List Char} {x : Nat × Argument} {y : Event}
    (h : Heads cfg text x y) (hx : 1 ≤ x.1) : cfg.StandsAlone text x y := by
  intro v hv
  cases h with
  | call hc hb h =>
      obtain rfl := Call.eq_of_toArgument hv
      obtain ⟨m, t, r, hpos, hcall⟩ := standsAlone_of_reads hc hb h hx
      rw [hpos]
      exact ⟨m, t, r, rfl, hcall⟩
  | literal _ _ _ ha _ =>
      obtain rfl := hv
      cases depth_of_ofJson? ha
  | raw _ _ => cases hv

/-- A call is read in the same way wherever it starts, with all offsets moved by that of its start.
So blanks before a text only move the offsets, and each call in a tree is what is read from its own
`$` on. -/
theorem map_call_skip (cfg : Config) :
    (∀ depth (u s : List Char),
      (Read.call cfg depth ((Cursor.start (u ++ s)).skip u.length)).map Reading.pair =
        ((Read.call cfg depth (.start s)).map Reading.pair).shift (byteLength u)
          (Prod.map id (Cursor.shift (byteLength u)))) ∧
    (∀ w s, IsSpaces w →
      cfg.run (w ++ s) = (cfg.run s).shift (byteLength w) (Prod.map id (byteLength w + ·))) ∧
    ∀ text v n, cfg.leadingCall text = .ok (v, n) →
      ∃ es, cfg.trace text = es ++ [.finished v.name v.args.length n] ∧
        List.Forall₂ (cfg.StandsAlone text.toList) v.preorder es := by
  refine ⟨fun depth u s => ?_, fun w s hw => run_append_left cfg hw s, fun text v n h => ?_⟩
  · rw [Cursor.skip_start]
    exact map_call_shift cfg depth (byteLength u) (.start s)
  · obtain ⟨es, g, hread, rfl⟩ := run_eq_ok_iff_reads.mp h
    have hheads := callHeaded_of_reads hread text.toList v g rfl (Cursor.le_refl _)
    refine ⟨es, events_run_of_reads hread, ?_⟩
    have hboth := (List.forall₂_and_left _ _).mpr ⟨Argument.le_level v.toArgument 1, hheads⟩
    exact hboth.imp fun _ _ h => standsAlone_of_heads h.2 h.1

/-- A call that is not closed, after a letter of two bytes. Then a call in a call, after a blank and
on its own. -/
theorem map_call_skip_nested :
    let cfg : Config := ⟨2, .naive⟩
    let s := "$f([1)".toList
    let text := "$f($g(x))"
    let v : Call := ⟨"f", [.call "g" [.raw "x"]]⟩
    (Read.call cfg 1 ((Cursor.start ("é".toList ++ s)).skip 1)).map Reading.pair =
        ((Read.call cfg 1 (.start s)).map Reading.pair).shift 2 (Prod.map id (Cursor.shift 2)) ∧
      IsSpaces " ".toList ∧
      cfg.run (" ".toList ++ text.toList) = (cfg.run text.toList).shift 1 (Prod.map id (1 + ·)) ∧
      cfg.leadingCall text = .ok (v, 9) ∧
      ∃ es, cfg.trace text = es ++ [.finished "f" 1 9] ∧
        List.Forall₂ (cfg.StandsAlone text.toList) v.preorder es := by
  intro cfg s text v
  have hw : IsSpaces " ".toList := by simp [IsSpaces, isSpace]
  have h : cfg.leadingCall text = .ok (v, 9) := by
    dsimp only [cfg, text, v]
    with_unfolding_all rfl
  obtain ⟨hskip, hspaces, hcalls⟩ := map_call_skip cfg
  exact ⟨hskip 1 "é".toList s, hw, hspaces _ _ hw, h, hcalls text v 9 h⟩

end SigilCall
