import SigilCall.Cursor.Basic

namespace SigilCall.Cursor

open Text

def isRawChar (c : Char) : Bool := c != ',' && c != ')'

def rawToken (c : Cursor) : List Char := trim (c.rest.takeWhile isRawChar)

def skipRaw : Cursor → Cursor := Cursor.skipWhile isRawChar

theorem le_skipRaw (c : Cursor) : c ≤ c.skipRaw := le_skipWhile isRawChar c

end SigilCall.Cursor
