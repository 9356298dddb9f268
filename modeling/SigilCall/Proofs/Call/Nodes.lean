import Mathlib.Data.List.Forall2
import SigilCall.Proofs.Call.Offsets
import SigilCall.Proofs.Call.Rendering

namespace SigilCall

open Text Literal

inductive Heads (cfg : Config) (text : List Char) : Nat × Argument → Event → Prop
  | call {level : Nat} {c b g : Cursor} {es : List Event} {args : List Argument} :
      .start text ≤ c → c.skipSpace.Passes ['$'] b →
      ReadsCall cfg level c es (.ok (⟨b.name, args⟩, g)) →
      Heads cfg text (level, .call b.name args) (.nameRead b.name level b.pos)
  | literal {level : Nat} {c : Cursor} {k : Kind} {v : Json} {a : Argument} : .start text ≤ c →
      c.peek? = some k.opening → Json.decode (Span.scan k cfg.quoting c.rest).text = .ok v →
      Argument.ofJson? v = some a → (c.skipSpan k cfg.quoting).rest ≠ [] →
      Heads cfg text (level, a) (spanEvent cfg.quoting k c)
  | raw {level : Nat} {c : Cursor} : .start text ≤ c → c.skipRaw.rest ≠ [] →
      Heads cfg text (level, .raw (.ofList c.rawToken)) (rawEvent c)

namespace Argument

mutual

/-- The levels in a tree go up from that of its root. -/
theorem le_level (a : Argument) (level : Nat) : ∀ x ∈ a.preorder level, level ≤ x.1 := by
  match a with
  | .call _ args =>
      refine forall_preorder_call.mpr ⟨Nat.le_refl _, fun x hx => ?_⟩
      exact Nat.le_of_succ_le (le_levelList args (level + 1) x hx)
  | .object _ => exact forall_preorder_object.mpr (Nat.le_refl _)
  | .array _ => exact forall_preorder_array.mpr (Nat.le_refl _)
  | .raw _ => exact forall_preorder_raw.mpr (Nat.le_refl _)

theorem le_levelList (args : List Argument) (level : Nat) :
    ∀ x ∈ preorderList level args, level ≤ x.1 := by
  match args with
  | [] =>
      intro x hx
      cases hx
  | a :: args => exact forall_preorderList_cons.mpr ⟨le_level a level, le_levelList args level⟩

end

end Argument

variable {text : List Char} {cfg : Config} {depth : Nat} {c d b e f g : Cursor} {a : Argument}
  {args : List Argument} {es es' : List Event} {v : Call}

def CallHeaded (cfg : Config) (text : List Char) (depth : Nat) (c : Cursor) (es : List Event)
    (o : Except CallError (Call × Cursor)) : Prop :=
  ∀ v g, o = .ok (v, g) → .start text ≤ c →
    List.Forall₂ (Heads cfg text) (v.toArgument.preorder depth) es

def ListHeaded (cfg : Config) (text : List Char) (depth : Nat) (c : Cursor) (es : List Event)
    (o : Except CallError (List Argument × Cursor)) : Prop :=
  ∀ args f, o = .ok (args, f) → .start text ≤ c → f.rest ≠ [] →
    List.Forall₂ (Heads cfg text) (Argument.preorderList (depth + 1) args) es

def ArgumentHeaded (cfg : Config) (text : List Char) (depth : Nat) (c : Cursor) (es : List Event)
    (o : Except CallError (Argument × Cursor)) : Prop :=
  ∀ a d, o = .ok (a, d) → .start text ≤ c → d.rest ≠ [] →
    List.Forall₂ (Heads cfg text) (a.preorder (depth + 1)) es

theorem callHeaded_call (hd : depth ≤ cfg.maxDepth) (ho : Opens c b e)
    (hlist : ReadsList cfg depth e es (.ok (args, f)))
    (hl : ListHeaded cfg text depth e es (.ok (args, f))) (hg : f.skipSpace.Passes [')'] g) :
    CallHeaded cfg text depth c (.nameRead b.name depth b.pos :: es) (.ok (⟨b.name, args⟩, g)) := by
  intro v g' h hc
  cases h
  have hf : f.rest ≠ [] := Cursor.rest_ne_nil_of_skipSpace (Cursor.rest_ne_nil_of_passes hg)
  exact .cons (.call hc ho.sigil (.call hd ho hlist hg)) (hl args f rfl (Cursor.le_trans hc ho.le) hf)

theorem listHeaded_last (ha : ArgumentHeaded cfg text depth c.skipSpace es (.ok (a, d))) :
    ListHeaded cfg text depth c es (.ok ([a], d.skipSpace)) := by
  intro args f h hc hf
  cases h
  have hfirst := ha a d rfl (Cursor.le_trans hc c.le_skipSpace) (Cursor.rest_ne_nil_of_skipSpace hf)
  rw [Argument.preorderList, Argument.preorderList, List.append_nil]
  exact hfirst

theorem listHeaded_more (hle : c ≤ e)
    (ha : ArgumentHeaded cfg text depth c.skipSpace es (.ok (a, d)))
    (he : d.skipSpace.Passes [','] e) (hl : ListHeaded cfg text depth e es' (.ok (args, f))) :
    ListHeaded cfg text depth c (es ++ es') (.ok (a :: args, f)) := by
  intro args' f' h hc hf
  cases h
  have hd : d.rest ≠ [] := Cursor.rest_ne_nil_of_skipSpace (Cursor.rest_ne_nil_of_passes he)
  have hfirst := ha a d rfl (Cursor.le_trans hc c.le_skipSpace) hd
  have hrest := hl args f rfl (Cursor.le_trans hc hle) hf
  rw [Argument.preorderList]
  exact List.rel_append hfirst hrest

theorem argumentHeaded_call (h : CallHeaded cfg text (depth + 1) c es (.ok (v, d))) :
    ArgumentHeaded cfg text depth c es (.ok (v.toArgument, d)) := by
  intro a' d' heq hc _
  cases heq
  exact h v d rfl hc

theorem argumentHeaded_literal {k : Kind} {v : Json} (hk : c.peek? = some k.opening)
    (hv : Json.decode (Span.scan k cfg.quoting c.rest).text = .ok v)
    (ha : Argument.ofJson? v = some a) :
    ArgumentHeaded cfg text depth c [spanEvent cfg.quoting k c]
      (.ok (a, c.skipSpan k cfg.quoting)) := by
  intro a' d' heq hc hne
  cases heq
  have hheads : Heads cfg text (depth + 1, a) (spanEvent cfg.quoting k c) :=
    .literal hc hk hv ha hne
  rw [Argument.preorder_of_ofJson? ha]
  exact .cons hheads .nil

theorem argumentHeaded_raw (c : Cursor) :
    ArgumentHeaded cfg text depth c [rawEvent c] (.ok (.raw (.ofList c.rawToken), c.skipRaw)) := by
  intro a' d' heq hc hne
  cases heq
  exact .cons (.raw hc hne) .nil

mutual

theorem callHeaded_of_reads {cfg : Config} {depth : Nat} {c : Cursor} {es : List Event}
    {o : Except CallError (Call × Cursor)} (h : ReadsCall cfg depth c es o) (text : List Char) :
    CallHeaded cfg text depth c es o := by
  match h with
  | .tooDeep _ | .noSigil _ _ | .noOpening _ _ _ | .badArguments _ _ _ | .noClosing _ _ _ _ =>
      intro v g heq
      cases heq
  | .call hd ho hl hg => exact callHeaded_call hd ho hl (listHeaded_of_reads hl text) hg

theorem listHeaded_of_reads {cfg : Config} {depth : Nat} {c : Cursor} {es : List Event}
    {o : Except CallError (List Argument × Cursor)} (h : ReadsList cfg depth c es o)
    (text : List Char) : ListHeaded cfg text depth c es o := by
  match h with
  | .badFirst _ | .badRest _ _ _ =>
      intro args f heq
      cases heq
  | .last ha _ => exact listHeaded_last (argumentHeaded_of_reads ha text)
  | .more ha he hl =>
      exact listHeaded_more (le_of_comma ha he) (argumentHeaded_of_reads ha text) he
        (listHeaded_of_reads hl text)

theorem argumentHeaded_of_reads {cfg : Config} {depth : Nat} {c : Cursor} {es : List Event}
    {o : Except CallError (Argument × Cursor)} (h : ReadsArgument cfg depth c es o)
    (text : List Char) : ArgumentHeaded cfg text depth c es o := by
  match h with
  | .badCall _ _ | .badLiteral _ _ =>
      intro a d heq
      cases heq
  | .call _ hc => exact argumentHeaded_call (callHeaded_of_reads hc text)
  | .literal hk hv ha => exact argumentHeaded_literal hk hv ha
  | .raw _ => exact argumentHeaded_raw c

end

end SigilCall
