import SigilCall.Call.Parse

namespace SigilCall

open Text

theorem Read.length_lt_of_call {cfg : Config} {depth : Nat} {c : Cursor} {r : Reading Call c}
    (h : (Read.call cfg depth c).result = .ok r) : r.stop.rest.length < c.rest.length := by
  rw [call] at h
  split at h
  · cases h
  · split at h
    · cases h
    · next b hb =>
        obtain ⟨_, -, h⟩ := Run.exists_of_bind_eq_ok h
        simp only at h
        split at h
        · cases h
        · next e he =>
            obtain ⟨args, -, h⟩ := Run.exists_of_bind_eq_ok h
            split at h
            · cases h
            · next g hg =>
                cases h
                have h₁ := Cursor.length_le c.le_skipSpace
                have h₂ := Cursor.length_lt_of_accept? hb
                have h₃ := Cursor.length_le (b.le_skipWhile isNameChar)
                have h₄ := Cursor.length_le (b.skipWhile isNameChar).le_skipSpace
                have h₅ := Cursor.length_lt_of_accept? he
                have h₆ := Cursor.length_le args.ahead
                have h₇ := Cursor.length_le args.stop.le_skipSpace
                have h₈ := Cursor.length_lt_of_accept? hg
                simp only
                omega

/-- Calls that follow each other in a text, each with the offset of its end, and the error at which
they stop. The offset of the error counts from the end of the last call. -/
structure Series where
  calls : List (Call × Nat)
  stop : CallError

def Config.seriesFrom (cfg : Config) (offset : Nat) (text : List Char) : Series :=
  match h : (Read.call cfg 1 (.start text)).result with
  | .error e => ⟨[], e⟩
  | .ok r =>
      have : r.stop.rest.length < text.length := Read.length_lt_of_call h
      let tail := cfg.seriesFrom (offset + r.stop.pos) r.stop.rest
      ⟨(r.value, offset + r.stop.pos) :: tail.calls, tail.stop⟩
termination_by text.length

def Config.series (cfg : Config) (text : String) : Series := cfg.seriesFrom 0 text.toList

end SigilCall
