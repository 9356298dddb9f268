import SigilCall.Call.Parse
import SigilCall.Proofs.Passage

namespace SigilCall

open Text Literal

namespace Cursor

def name (c : Cursor) : String := String.ofList (c.rest.takeWhile isNameChar)

def skipName (c : Cursor) : Cursor := (c.skipWhile isNameChar).skipSpace

theorem passes_skipSpan (k : Kind) (mode : Quoting) (c : Cursor) :
    c.Passes (Span.scan k mode c.rest).text (c.skipSpan k mode) :=
  ⟨(Span.scan_append k mode c.rest).symm, rfl⟩

def IsPlain (c : Cursor) : Prop := ∀ x, c.peek? = some x → x ≠ '$' ∧ Kind.ofOpening? x = none

theorem IsPlain.ne_dollar {c : Cursor} (h : c.IsPlain) : c.peek? ≠ some '$' :=
  fun hs => (h _ hs).1 rfl

theorem IsPlain.ne_opening {c : Cursor} (h : c.IsPlain) (k : Kind) : c.peek? ≠ some k.opening := by
  intro hk
  have hnone := (h _ hk).2
  rw [Kind.ofOpening?_eq_some_iff.mpr rfl] at hnone
  cases hnone

end Cursor

/-- A sigil, a name and an opening parenthesis. The name starts at `b` and the arguments at `e`. -/
structure Opens (c b e : Cursor) : Prop where
  sigil : c.skipSpace.Passes ['$'] b
  parenthesis : b.skipName.Passes ['('] e

def spanEvent (mode : Quoting) (k : Kind) (c : Cursor) : Event :=
  .spanScanned k c.pos (c.skipSpan k mode).pos (Span.scan k mode c.rest).closed

def rawEvent (c : Cursor) : Event := .rawRead (.ofList c.rawToken) c.skipRaw.pos

@[simp] theorem level_spanEvent (mode : Quoting) (k : Kind) (c : Cursor) :
    (spanEvent mode k c).level = .trace := rfl

@[simp] theorem level_rawEvent (c : Cursor) : (rawEvent c).level = .trace := rfl

mutual

/-- Every way in which the reading of a call can go, with its events and its outcome. -/
inductive ReadsCall (cfg : Config) :
    Nat → Cursor → List Event → Except CallError (Call × Cursor) → Prop
  | tooDeep {depth : Nat} {c : Cursor} : cfg.maxDepth < depth →
      ReadsCall cfg depth c [] (.error (.tooDeep cfg.maxDepth c.skipSpace.pos))
  | noSigil {depth : Nat} {c : Cursor} : depth ≤ cfg.maxDepth → c.skipSpace.peek? ≠ some '$' →
      ReadsCall cfg depth c [] (.error (.missing .sigil c.skipSpace.pos))
  | noOpening {depth : Nat} {c b : Cursor} : depth ≤ cfg.maxDepth → c.skipSpace.Passes ['$'] b →
      b.skipName.peek? ≠ some '(' →
      ReadsCall cfg depth c [.nameRead b.name depth b.pos] (.error (.missing .opening b.skipName.pos))
  | badArguments {depth : Nat} {c b e : Cursor} {es : List Event} {x : CallError} :
      depth ≤ cfg.maxDepth → Opens c b e → ReadsList cfg depth e es (.error x) →
      ReadsCall cfg depth c (.nameRead b.name depth b.pos :: es) (.error x)
  | noClosing {depth : Nat} {c b e f : Cursor} {es : List Event} {args : List Argument} :
      depth ≤ cfg.maxDepth → Opens c b e → ReadsList cfg depth e es (.ok (args, f)) →
      f.skipSpace.peek? ≠ some ')' →
      ReadsCall cfg depth c (.nameRead b.name depth b.pos :: es)
        (.error (.missing .closing f.skipSpace.pos))
  | call {depth : Nat} {c b e f g : Cursor} {es : List Event} {args : List Argument} :
      depth ≤ cfg.maxDepth → Opens c b e → ReadsList cfg depth e es (.ok (args, f)) →
      f.skipSpace.Passes [')'] g →
      ReadsCall cfg depth c (.nameRead b.name depth b.pos :: es) (.ok (⟨b.name, args⟩, g))

inductive ReadsList (cfg : Config) :
    Nat → Cursor → List Event → Except CallError (List Argument × Cursor) → Prop
  | badFirst {depth : Nat} {c : Cursor} {es : List Event} {x : CallError} :
      ReadsArgument cfg depth c.skipSpace es (.error x) → ReadsList cfg depth c es (.error x)
  | last {depth : Nat} {c d : Cursor} {es : List Event} {a : Argument} :
      ReadsArgument cfg depth c.skipSpace es (.ok (a, d)) → d.skipSpace.peek? ≠ some ',' →
      ReadsList cfg depth c es (.ok ([a], d.skipSpace))
  | badRest {depth : Nat} {c d e : Cursor} {es es' : List Event} {a : Argument} {x : CallError} :
      ReadsArgument cfg depth c.skipSpace es (.ok (a, d)) → d.skipSpace.Passes [','] e →
      ReadsList cfg depth e es' (.error x) → ReadsList cfg depth c (es ++ es') (.error x)
  | more {depth : Nat} {c d e f : Cursor} {es es' : List Event} {a : Argument}
      {args : List Argument} :
      ReadsArgument cfg depth c.skipSpace es (.ok (a, d)) → d.skipSpace.Passes [','] e →
      ReadsList cfg depth e es' (.ok (args, f)) →
      ReadsList cfg depth c (es ++ es') (.ok (a :: args, f))

inductive ReadsArgument (cfg : Config) :
    Nat → Cursor → List Event → Except CallError (Argument × Cursor) → Prop
  | badCall {depth : Nat} {c : Cursor} {es : List Event} {x : CallError} : c.peek? = some '$' →
      ReadsCall cfg (depth + 1) c es (.error x) → ReadsArgument cfg depth c es (.error x)
  | call {depth : Nat} {c d : Cursor} {es : List Event} {v : Call} : c.peek? = some '$' →
      ReadsCall cfg (depth + 1) c es (.ok (v, d)) →
      ReadsArgument cfg depth c es (.ok (v.toArgument, d))
  | badLiteral {depth : Nat} {c : Cursor} {k : Kind} {x : Json.DecodeError} :
      c.peek? = some k.opening →
      Json.decode (Span.scan k cfg.quoting c.rest).text = .error x →
      ReadsArgument cfg depth c [spanEvent cfg.quoting k c] (.error (.badLiteral k c.pos x))
  | literal {depth : Nat} {c : Cursor} {k : Kind} {v : Json} {a : Argument} :
      c.peek? = some k.opening → Json.decode (Span.scan k cfg.quoting c.rest).text = .ok v →
      Argument.ofJson? v = some a →
      ReadsArgument cfg depth c [spanEvent cfg.quoting k c] (.ok (a, c.skipSpan k cfg.quoting))
  | raw {depth : Nat} {c : Cursor} : c.IsPlain →
      ReadsArgument cfg depth c [rawEvent c] (.ok (.raw (.ofList c.rawToken), c.skipRaw))

end

end SigilCall
