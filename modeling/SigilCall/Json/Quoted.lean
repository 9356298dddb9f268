import SigilCall.Json.Reader

namespace SigilCall.Json.Read

open Text

def hexDigit? (c : Char) : Option Nat :=
  if c.isDigit then some (c.toNat - '0'.toNat)
  else if 'a' ≤ c ∧ c ≤ 'f' then some (c.toNat - 'a'.toNat + 10)
  else if 'A' ≤ c ∧ c ≤ 'F' then some (c.toNat - 'A'.toNat + 10)
  else none

def hexValue? (s : List Char) : Option Nat :=
  s.foldlM (fun n c => (hexDigit? c).map (16 * n + ·)) 0

/-- Four hexadecimal digits. They take four bytes, or the whole text if it ends before that. -/
def hexUnit (c : Cursor) : Outcome Nat c :=
  let window := c.rest.take 4
  if byteLength window < 4 then .error ⟨.eofString, c.pos + byteLength window⟩
  else
    match hexValue? window with
    | none => .error ⟨.invalidEscape, c.pos + 4⟩
    | some n => .ok ⟨n, c.skip 4, c.le_skip 4⟩

def isLeading (n : Nat) : Bool := 0xd800 ≤ n && n < 0xdc00

def isTrailing (n : Nat) : Bool := 0xdc00 ≤ n && n < 0xe000

def second (x : Char) (c : Cursor) : Outcome Unit c :=
  match h : c.next? with
  | none => fail .eofString c
  | some (y, d) =>
      if y = x then .ok ⟨(), d, Cursor.le_of_next? h⟩ else fail .unfinishedSurrogate c

def trailingUnit (c : Cursor) : Outcome Nat c := do
  let b ← second '\\' c
  let u ← second 'u' b.stop
  let n ← hexUnit u.stop
  if isTrailing n.value then
    return ⟨n.value, n.stop, Cursor.le_trans b.ahead (Cursor.le_trans u.ahead n.ahead)⟩
  else .error ⟨.loneSurrogate, n.stop.pos⟩

def unicode (c : Cursor) : Outcome Char c := do
  let n ← hexUnit c
  if isTrailing n.value then .error ⟨.loneSurrogate, n.stop.pos⟩
  else if isLeading n.value then
    let m ← trailingUnit n.stop
    return ⟨.ofNat (0x10000 + 0x400 * (n.value - 0xd800) + (m.value - 0xdc00)), m.stop,
      Cursor.le_trans n.ahead m.ahead⟩
  else return ⟨.ofNat n.value, n.stop, n.ahead⟩

def escaped? : Char → Option Char
  | '"' => some '"'
  | '\\' => some '\\'
  | '/' => some '/'
  | 'b' => some '\x08'
  | 'f' => some '\x0c'
  | 'n' => some '\n'
  | 'r' => some '\r'
  | 't' => some '\t'
  | _ => none

def escape (c : Cursor) : Outcome Char c :=
  match h : c.next? with
  | none => fail .eofString c
  | some (x, d) =>
      match escaped? x with
      | some y => .ok ⟨y, d, Cursor.le_of_next? h⟩
      | none =>
          if x = 'u' then (unicode d).map (.since (Cursor.le_of_next? h)) else fail .invalidEscape c

def quoted (c : Cursor) : Outcome (List Char) c :=
  match h : c.next? with
  | none => fail .eofString c
  | some (x, d) =>
      if x = '"' then .ok ⟨[], d, Cursor.le_of_next? h⟩
      else if x = '\\' then do
        let y ← escape d
        let r ← quoted y.stop
        return (r.map (y.value :: ·)).since (Cursor.le_trans (Cursor.le_of_next? h) y.ahead)
      else if x.toNat < 0x20 then fail .controlCharacter c
      else do
        let r ← quoted d
        return (r.map (x :: ·)).since (Cursor.le_of_next? h)
termination_by c.rest.length
decreasing_by
  · exact Nat.lt_of_le_of_lt (Cursor.length_le y.ahead) (Cursor.length_lt_of_next? h)
  · exact Cursor.length_lt_of_next? h

end SigilCall.Json.Read
