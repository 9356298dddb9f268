import Mathlib.Order.Bounds.Defs
import SigilCall.Proofs.Call.Ascent
import SigilCall.Proofs.Call.Nodes

namespace SigilCall

open Text Literal

namespace Argument

mutual

theorem level_add_depth_le (a : Argument) (level : Nat) :
    ∀ x ∈ a.preorder level, x.1 + x.2.depth ≤ level + a.depth := by
  match a with
  | .call name args =>
      refine forall_preorder_call.mpr ⟨Nat.le_refl _, fun x hx => ?_⟩
      have hlist := level_add_depthList_le args (level + 1) x hx
      rw [depth_call]
      omega
  | .object _ => exact forall_preorder_object.mpr (Nat.le_refl _)
  | .array _ => exact forall_preorder_array.mpr (Nat.le_refl _)
  | .raw _ => exact forall_preorder_raw.mpr (Nat.le_refl _)

theorem level_add_depthList_le (args : List Argument) (level : Nat) :
    ∀ x ∈ preorderList level args, x.1 + x.2.depth ≤ level + depthList args := by
  match args with
  | [] =>
      intro x hx
      cases hx
  | a :: args =>
      rw [forall_preorderList_cons, depthList_cons]
      constructor
      · intro x hx
        have hfirst := level_add_depth_le a level x hx
        omega
      · intro x hx
        have hrest := level_add_depthList_le args level x hx
        omega

end

mutual

theorem exists_mem_preorder {n : Nat} (a : Argument) (level : Nat) (h : a.depth = n + 1) :
    ∃ name args, (level + n, .call name args) ∈ a.preorder level := by
  match a with
  | .call name args =>
      rw [depth_call] at h
      obtain rfl := Nat.succ.inj h
      cases hargs : depthList args with
      | zero => exact ⟨name, args, List.mem_cons_self⟩
      | succ k =>
          obtain ⟨name', args', hmem⟩ := exists_mem_preorderList args (level + 1) hargs
          refine ⟨name', args', List.mem_cons_of_mem _ ?_⟩
          rwa [Nat.add_right_comm, Nat.add_assoc] at hmem
  | .object _ | .array _ | .raw _ => cases h

theorem exists_mem_preorderList {n : Nat} (args : List Argument) (level : Nat)
    (h : depthList args = n + 1) :
    ∃ name args', (level + n, .call name args') ∈ preorderList level args := by
  match args with
  | [] => cases h
  | a :: args =>
      rw [depthList_cons] at h
      by_cases ha : a.depth = n + 1
      · obtain ⟨name, args', hmem⟩ := exists_mem_preorder a level ha
        exact ⟨name, args', List.mem_append_left _ hmem⟩
      · have hargs : depthList args = n + 1 := by omega
        obtain ⟨name, args', hmem⟩ := exists_mem_preorderList args level hargs
        exact ⟨name, args', List.mem_append_right _ hmem⟩

end

end Argument

/-- The event that is left behind when a node of a tree is read from a text: the name of a call, or
the span of another argument. -/
inductive Records (text : List Char) : Nat × Argument → Event → Prop
  | call {level : Nat} {name : String} {args : List Argument} {u w : List Char} :
      text = u ++ '$' :: (name.toList ++ w) →
      Records text (level, .call name args) (.nameRead name level (byteLength u + 1))
  | object {level start stop : Nat} {es : List (String × Json)} {t : List Char} :
      slice? text start stop = some t → Json.decode t = .ok (.object es) →
      Records text (level, .object es) (.spanScanned .object start stop true)
  | array {level start stop : Nat} {vs : List Json} {t : List Char} :
      slice? text start stop = some t → Json.decode t = .ok (.array vs) →
      Records text (level, .array vs) (.spanScanned .array start stop true)
  | raw {level : Nat} {s : String} {u w : List Char} {x : Char} :
      text = u ++ x :: w → x = ',' ∨ x = ')' →
      Records text (level, .raw s) (.rawRead s (byteLength u))

variable {text : List Char} {cfg : Config} {level depth : Nat} {c d b e f g : Cursor}
  {a : Argument} {args : List Argument} {es es' : List Event} {v : Call}

theorem records_nameRead (hc : .start text ≤ c) (hb : c.skipSpace.Passes ['$'] b) :
    Records text (level, .call b.name args) (.nameRead b.name level b.pos) := by
  obtain ⟨u, hu, hpos⟩ := Cursor.exists_eq_append (Cursor.le_trans hc c.le_skipSpace)
  have hname : b.rest = b.name.toList ++ b.rest.dropWhile isNameChar := by
    rw [Cursor.name, String.toList_ofList, List.takeWhile_append_dropWhile]
  rw [hb.1, hname] at hu
  have hb' : b.pos = byteLength u + 1 := by
    rw [hb.2, hpos]
    rfl
  rw [hb']
  exact .call hu

theorem records_spanEvent {mode : Quoting} {k : Kind} {v : Json} (hc : .start text ≤ c)
    (hk : c.peek? = some k.opening) (hv : Json.decode (Span.scan k mode c.rest).text = .ok v)
    (ha : Argument.ofJson? v = some a) (hne : (c.skipSpan k mode).rest ≠ []) :
    Records text (level, a) (spanEvent mode k c) := by
  have hslice : slice? text c.pos (c.skipSpan k mode).pos = some (Span.scan k mode c.rest).text :=
    Cursor.slice?_of_passes hc (c.passes_skipSpan k mode)
  have hclosed : (Span.scan k mode c.rest).closed = true := Span.closed_of_rest_ne_nil hne
  rw [spanEvent, hclosed]
  obtain ⟨rfl, es, rfl⟩ | ⟨rfl, vs, rfl⟩ := exists_eq_of_decode hv (head?_scan hk)
  · cases ha
    exact .object hslice hv
  · cases ha
    exact .array hslice hv

theorem records_rawEvent (hc : .start text ≤ c) (hne : c.skipRaw.rest ≠ []) :
    Records text (level, .raw (.ofList c.rawToken)) (rawEvent c) := by
  obtain ⟨u, hu, hpos⟩ := Cursor.exists_eq_append (Cursor.le_trans hc c.le_skipRaw)
  obtain ⟨x, w, hx⟩ := List.exists_cons_of_ne_nil hne
  have hstop : x = ',' ∨ x = ')' := by
    have hx' : Cursor.isRawChar x = false :=
      Cursor.halts_skipWhile Cursor.isRawChar c x (congrArg List.head? hx)
    simpa [Cursor.isRawChar, imp_iff_not_or] using hx'
  rw [rawEvent, hpos]
  rw [hx] at hu
  exact .raw hu hstop

theorem records_of_heads {x : Nat × Argument} {y : Event} (h : Heads cfg text x y) :
    Records text x y := by
  cases h with
  | call hc hb _ => exact records_nameRead hc hb
  | literal hc hk hv ha hne => exact records_spanEvent hc hk hv ha hne
  | raw hc hne => exact records_rawEvent hc hne

def CallRecorded (text : List Char) (depth : Nat) (c : Cursor) (es : List Event)
    (o : Except CallError (Call × Cursor)) : Prop :=
  ∀ v g, o = .ok (v, g) → .start text ≤ c →
    List.Forall₂ (Records text) (v.toArgument.preorder depth) es

theorem callRecorded_of_reads {o : Except CallError (Call × Cursor)}
    (h : ReadsCall cfg depth c es o) (text : List Char) : CallRecorded text depth c es o := by
  intro v g ho hc
  exact (callHeaded_of_reads h text v g ho hc).imp fun _ _ => records_of_heads

theorem exists_mem_of_forall₂ {α β : Type} {R : α → β → Prop} {l : List α} {m : List β}
    (h : List.Forall₂ R l m) : ∀ y ∈ m, ∃ x ∈ l, R x y := by
  induction h with
  | nil =>
      intro y hy
      cases hy
  | cons hr _ ih =>
      refine List.forall_mem_cons.mpr ⟨⟨_, List.mem_cons_self, hr⟩, fun y hy => ?_⟩
      obtain ⟨x, hx, hr⟩ := ih y hy
      exact ⟨x, List.mem_cons_of_mem _ hx, hr⟩

/-- The deepest level in the events is the depth of the tree. -/
theorem isGreatest_depth (h : List.Forall₂ (Records text) v.preorder es) :
    IsGreatest {m | ∃ name offset, .nameRead name m offset ∈ es} v.depth := by
  constructor
  · obtain ⟨name, args, hmem⟩ := Argument.exists_mem_preorder v.toArgument 1 v.depth_eq
    obtain ⟨e, he, hrecords⟩ := exists_mem_of_forall₂ h.flip _ hmem
    rw [v.depth_eq, Nat.add_comm]
    cases hrecords with
    | call _ => exact ⟨_, _, he⟩
  · rintro m ⟨name, offset, hmem⟩
    obtain ⟨x, hx, hrecords⟩ := exists_mem_of_forall₂ h _ hmem
    have hle := Argument.level_add_depth_le v.toArgument 1 x hx
    cases hrecords with
    | call _ =>
        rw [Argument.depth_call, Call.depth_toArgument] at hle
        omega

theorem level_eq_trace (h : List.Forall₂ (Records text) v.preorder es) :
    ∀ e ∈ es, e.level = .trace := by
  intro e he
  obtain ⟨x, -, hrecords⟩ := exists_mem_of_forall₂ h e he
  cases hrecords <;> rfl

/-- The events of a call that is read are those of the nodes of its tree, parents first, and then
that of its outcome. Their positions increase, and the deepest level in them is the call's depth. -/
theorem trace_of_leadingCall {text : String} {n : Nat} (h : cfg.leadingCall text = .ok (v, n)) :
    (∃ es, cfg.trace text = es ++ [.finished v.name v.args.length n] ∧
        List.Forall₂ (Records text.toList) v.preorder es ∧ ∀ e ∈ es, e.level = .trace) ∧
      (positions (cfg.trace text)).Pairwise (· < ·) ∧
      IsGreatest {m | ∃ name offset, .nameRead name m offset ∈ cfg.trace text} v.depth := by
  obtain ⟨es, g, hread, rfl⟩ := run_eq_ok_iff_reads.mp h
  have htrace : cfg.trace text = es ++ [.finished v.name v.args.length g.pos] :=
    events_run_of_reads hread
  have hrecords : List.Forall₂ (Records text.toList) v.preorder es :=
    callRecorded_of_reads hread text.toList v g rfl (Cursor.le_refl _)
  refine ⟨⟨es, htrace, hrecords, level_eq_trace hrecords⟩, increasing_positions_trace cfg text, ?_⟩
  have hdepth := isGreatest_depth hrecords
  rw [htrace]
  simpa using hdepth

/-- A call in a call, and a literal after it. -/
theorem trace_of_leadingCall_nested :
    let cfg : Config := ⟨2, .naive⟩
    let text := "$f($g(x), [])"
    let v : Call := ⟨"f", [.call "g" [.raw "x"], .array []]⟩
    cfg.leadingCall text = .ok (v, 13) ∧
      (∃ es, cfg.trace text = es ++ [.finished v.name v.args.length 13] ∧
        List.Forall₂ (Records text.toList) v.preorder es ∧ ∀ e ∈ es, e.level = .trace) ∧
      (positions (cfg.trace text)).Pairwise (· < ·) ∧
      IsGreatest {m | ∃ name offset, .nameRead name m offset ∈ cfg.trace text} v.depth := by
  intro cfg text v
  have h : cfg.leadingCall text = .ok (v, 13) := by
    dsimp only [cfg, text, v]
    with_unfolding_all rfl
  exact ⟨h, trace_of_leadingCall h⟩

end SigilCall
