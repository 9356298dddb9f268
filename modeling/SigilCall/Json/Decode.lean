import SigilCall.Json.Basic
import SigilCall.Json.Numeral
import SigilCall.Json.Quoted

namespace SigilCall.Json

def maxLevels : Nat := 127

namespace Read

def key (c : Cursor) : Outcome String c :=
  match h : c.next? with
  | none => fail .eofValue c
  | some (x, d) =>
      if x = '"' then do
        let k ← quoted d
        let e := skipBlank k.stop
        match h' : e.next? with
        | none => fail .eofObject e
        | some (y, f) =>
            if y = ':' then
              have hef := Cursor.le_trans (le_skipBlank _) (Cursor.le_of_next? h')
              return ⟨String.ofList k.value, f,
                Cursor.le_trans (Cursor.le_of_next? h) (Cursor.le_trans k.ahead hef)⟩
            else fail .expectedColon e
      else fail .keyNotString c

mutual

def value (opened : Nat) (c : Cursor) : Outcome Json c :=
  let a := skipBlank c
  match h : a.next? with
  | none => fail .eofValue a
  | some (x, b) =>
      have hab : c ≤ b := Cursor.le_trans (le_skipBlank c) (Cursor.le_of_next? h)
      if x = 'n' then do
        let r ← word b ['u', 'l', 'l']
        return (r.map fun _ => .null).since hab
      else if x = 't' then do
        let r ← word b ['r', 'u', 'e']
        return (r.map fun _ => .bool true).since hab
      else if x = 'f' then do
        let r ← word b ['a', 'l', 's', 'e']
        return (r.map fun _ => .bool false).since hab
      else if x = '"' then do
        let r ← quoted b
        return (r.map fun s => .string (.ofList s)).since hab
      else if x = '-' ∨ x.isDigit then do
        let r ← number a
        return (r.map .number).since (le_skipBlank c)
      else if x = '[' then
        if maxLevels ≤ opened then fail .recursionLimit a
        else
          let d := skipBlank b
          have hcd : c ≤ d := Cursor.le_trans hab (le_skipBlank b)
          match h' : d.next? with
          | none => fail .eofList d
          | some (y, e) =>
              if y = ']' then
                return ⟨.array [], e, Cursor.le_trans hcd (Cursor.le_of_next? h')⟩
              else do
                let r ← items (opened + 1) d
                return (r.map .array).since hcd
      else if x = '{' then
        if maxLevels ≤ opened then fail .recursionLimit a
        else
          let d := skipBlank b
          have hcd : c ≤ d := Cursor.le_trans hab (le_skipBlank b)
          match h' : d.next? with
          | none => fail .eofObject d
          | some (y, e) =>
              if y = '}' then
                return ⟨.object [], e, Cursor.le_trans hcd (Cursor.le_of_next? h')⟩
              else do
                let r ← entries (opened + 1) d
                return (r.map fun es => .object (collect es)).since hcd
      else fail .expectedValue a
termination_by 2 * c.rest.length
decreasing_by
  all_goals
    have hd := Cursor.length_le (le_skipBlank b)
    have hb := Cursor.length_lt_of_next? h
    have ha : a.rest.length ≤ c.rest.length := Cursor.length_le (le_skipBlank c)
    omega

def items (opened : Nat) (c : Cursor) : Outcome (List Json) c := do
  let v ← value opened c
  let d := skipBlank v.stop
  match h : d.next? with
  | none => fail .eofList d
  | some (x, e) =>
      have hce : c ≤ e :=
        Cursor.le_trans v.ahead (Cursor.le_trans (le_skipBlank _) (Cursor.le_of_next? h))
      if x = ']' then return ⟨[v.value], e, hce⟩
      else if x = ',' then
        let f := skipBlank e
        if f.peek? = some ']' then fail .trailingComma f
        else do
          let r ← items opened f
          return (r.map (v.value :: ·)).since (Cursor.le_trans hce (le_skipBlank e))
      else fail .expectedListComma d
termination_by 2 * c.rest.length + 1
decreasing_by
  · exact Nat.lt_succ_self _
  · have hf := Cursor.length_le (le_skipBlank e)
    have he := Cursor.length_lt_of_next? h
    have hd : d.rest.length ≤ c.rest.length :=
      Cursor.length_le (Cursor.le_trans v.ahead (le_skipBlank _))
    omega

def entries (opened : Nat) (c : Cursor) : Outcome (List (String × Json)) c := do
  let k ← key c
  let v ← value opened k.stop
  let d := skipBlank v.stop
  match h : d.next? with
  | none => fail .eofObject d
  | some (x, e) =>
      have hce : c ≤ e := Cursor.le_trans k.ahead
        (Cursor.le_trans v.ahead (Cursor.le_trans (le_skipBlank _) (Cursor.le_of_next? h)))
      if x = '}' then return ⟨[(k.value, v.value)], e, hce⟩
      else if x = ',' then
        let f := skipBlank e
        if f.peek? = some '}' then fail .trailingComma f
        else do
          let r ← entries opened f
          return (r.map ((k.value, v.value) :: ·)).since (Cursor.le_trans hce (le_skipBlank e))
      else fail .expectedObjectComma d
termination_by 2 * c.rest.length + 1
decreasing_by
  · have hk := Cursor.length_le k.ahead
    omega
  · have hf := Cursor.length_le (le_skipBlank e)
    have he := Cursor.length_lt_of_next? h
    have hd : d.rest.length ≤ c.rest.length :=
      Cursor.length_le (Cursor.le_trans k.ahead (Cursor.le_trans v.ahead (le_skipBlank _)))
    omega

end

end Read

def decode (text : List Char) : Except DecodeError Json :=
  Except.mapError (Failure.inText text) do
    let v ← Read.value 0 (.start text)
    let c := Read.skipBlank v.stop
    if c.isAtEnd then return v.value else Read.fail .trailingCharacters c

end SigilCall.Json
