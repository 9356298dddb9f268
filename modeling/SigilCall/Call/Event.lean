import SigilCall.Call.Error

namespace SigilCall

inductive Event
  | nameRead (name : String) (depth offset : Nat)
  | rawRead (text : String) (stop : Nat)
  | spanScanned (kind : Literal.Kind) (start stop : Nat) (closed : Bool)
  | finished (name : String) (args stop : Nat)
  | failed (error : CallError)
  deriving DecidableEq, Repr

namespace Event

inductive Level
  | trace
  | debug
  deriving DecidableEq, Repr

def level : Event → Level
  | nameRead .. | rawRead .. | spanScanned .. => .trace
  | finished .. | failed .. => .debug

def message : Event → String
  | nameRead .. => "parse_call"
  | rawRead .. => "raw argument"
  | spanScanned .. => "scanned literal span"
  | finished .. => "parsed call"
  | failed .. => "call parse failed"

inductive Field
  | text (s : String)
  | number (n : Nat)
  | flag (b : Bool)
  deriving DecidableEq, Repr

def fields : Event → List (String × Field)
  | nameRead name depth offset =>
      [("name", .text name), ("depth", .number depth), ("offset", .number offset)]
  | rawRead text stop => [("text", .text text), ("end", .number stop)]
  | spanScanned kind start stop closed =>
      [("kind", .text kind.name), ("start", .number start), ("end", .number stop),
        ("terminated", .flag closed)]
  | finished name args stop =>
      [("name", .text name), ("args", .number args), ("end", .number stop)]
  | failed error => [("err", .text error.message)]

def positions : Event → List Nat
  | nameRead _ _ offset => [offset]
  | rawRead _ stop => [stop]
  | spanScanned _ start stop _ => [start, stop]
  | finished _ _ stop => [stop]
  | failed _ => []

end Event

end SigilCall
