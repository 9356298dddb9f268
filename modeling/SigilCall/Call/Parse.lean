import SigilCall.Call.Basic
import SigilCall.Call.Config
import SigilCall.Call.Run
import SigilCall.Cursor.Raw
import SigilCall.Json.Decode

namespace SigilCall

open Text Literal

namespace Read

def literal (mode : Quoting) (k : Kind) (c : Cursor) : Run (Reading Argument c) := do
  let span := Span.scan k mode c.rest
  let d := c.skipSpan k mode
  .emit (.spanScanned k c.pos d.pos span.closed)
  match Json.decode span.text with
  | .error e => .fail (.badLiteral k c.pos e)
  | .ok v =>
      match Argument.ofJson? v with
      | some a => return ⟨a, d, c.le_skipSpan k mode⟩
      -- No text that starts with a bracket gets here.
      | none => .fail (.badLiteral k c.pos ⟨.expectedValue, 1, 0⟩)

def raw (c : Cursor) : Run (Reading Argument c) := do
  let text := String.ofList c.rawToken
  .emit (.rawRead text c.skipRaw.pos)
  return ⟨.raw text, c.skipRaw, c.le_skipRaw⟩

mutual

def call (cfg : Config) (depth : Nat) (c : Cursor) : Run (Reading Call c) :=
  let a := c.skipSpace
  if cfg.maxDepth < depth then .fail (.tooDeep cfg.maxDepth a.pos)
  else
    match h : a.accept? '$' with
    | none => .fail (.missing .sigil a.pos)
    | some b => do
        let name := String.ofList (b.rest.takeWhile isNameChar)
        .emit (.nameRead name depth b.pos)
        let d := (b.skipWhile isNameChar).skipSpace
        have hbd : b ≤ d := Cursor.le_trans (b.le_skipWhile _) (Cursor.le_skipSpace _)
        match h' : d.accept? '(' with
        | none => .fail (.missing .opening d.pos)
        | some e => do
            let args ← arguments cfg depth e
            let f := args.stop.skipSpace
            match h'' : f.accept? ')' with
            | none => .fail (.missing .closing f.pos)
            | some g =>
                have hcd : c ≤ d :=
                  Cursor.le_trans c.le_skipSpace (Cursor.le_trans (Cursor.le_of_accept? h) hbd)
                have heg : e ≤ g := Cursor.le_trans args.ahead
                  (Cursor.le_trans (Cursor.le_skipSpace _) (Cursor.le_of_accept? h''))
                return ⟨⟨name, args.value⟩, g,
                  Cursor.le_trans hcd (Cursor.le_trans (Cursor.le_of_accept? h') heg)⟩
termination_by 3 * c.rest.length
decreasing_by
  have h₁ : a.rest.length ≤ c.rest.length := Cursor.length_le c.le_skipSpace
  have h₂ := Cursor.length_lt_of_accept? h
  have h₃ := Cursor.length_le hbd
  have h₄ := Cursor.length_lt_of_accept? h'
  omega

def arguments (cfg : Config) (depth : Nat) (c : Cursor) : Run (Reading (List Argument) c) := do
  let a ← argument cfg depth c.skipSpace
  let d := a.stop.skipSpace
  have hcd : c ≤ d :=
    Cursor.le_trans c.le_skipSpace (Cursor.le_trans a.ahead (Cursor.le_skipSpace _))
  match h : d.accept? ',' with
  | none => return ⟨[a.value], d, hcd⟩
  | some e =>
      have hce : c ≤ e := Cursor.le_trans hcd (Cursor.le_of_accept? h)
      (fun r => (r.map (a.value :: ·)).since hce) <$> arguments cfg depth e
termination_by 3 * c.rest.length + 2
decreasing_by
  · have hskip := Cursor.length_le c.le_skipSpace
    omega
  · have hed := Cursor.length_lt_of_accept? h
    have hdc := Cursor.length_le hcd
    omega

def argument (cfg : Config) (depth : Nat) (c : Cursor) : Run (Reading Argument c) :=
  match c.peek? with
  | none => raw c
  | some x =>
      if x = '$' then Reading.map Call.toArgument <$> call cfg (depth + 1) c
      else
        match Kind.ofOpening? x with
        | some k => literal cfg.quoting k c
        | none => raw c
termination_by 3 * c.rest.length + 1
decreasing_by exact Nat.lt_succ_self _

end

end Read

/-- Reads the call at the start of a text, and leaves out what follows it. The events end with the
outcome. -/
def Config.run (cfg : Config) (text : List Char) : Run (Call × Nat) :=
  let r := Read.call cfg 1 (.start text)
  match r.result with
  | .ok c =>
      let outcome := .finished c.value.name c.value.args.length c.stop.pos
      ⟨r.events ++ [outcome], .ok (c.value, c.stop.pos)⟩
  | .error e => ⟨r.events ++ [.failed e], .error e⟩

def Config.leadingCall (cfg : Config) (text : String) : Except CallError (Call × Nat) :=
  (cfg.run text.toList).result

def Config.parse (cfg : Config) (text : String) : Except CallError Call :=
  (cfg.leadingCall text).map Prod.fst

def Config.trace (cfg : Config) (text : String) : List Event := (cfg.run text.toList).events

end SigilCall
