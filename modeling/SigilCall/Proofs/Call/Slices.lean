import SigilCall.Proofs.Call.Emission
import SigilCall.Proofs.Cursor.History

namespace SigilCall

open Text Literal

/-- An event of a reading tells of a text that is cut out between two places: a name, the span of a
literal, or a raw token before it is trimmed. The outcome is no such event. -/
def Config.Cuts (cfg : Config) (text : List Char) : Event → Prop
  | .nameRead name _ m => ∃ s, dropBytes? text m = some s ∧ name.toList = s.takeWhile isNameChar ∧
      slice? text m (m + byteLength name.toList) = some name.toList
  | .spanScanned k m n _ => ∃ s, dropBytes? text m = some s ∧
      slice? text m n = some (Span.scan k cfg.quoting s).text
  | .rawRead token n => ∃ m s, dropBytes? text m = some s ∧
      slice? text m n = some (s.takeWhile Cursor.isRawChar) ∧
      token.toList = trim (s.takeWhile Cursor.isRawChar)
  | .finished _ _ _ | .failed _ => True

variable {cfg : Config} {text : List Char} {depth : Nat} {c b : Cursor}

theorem cuts_nameRead (hb : .start text ≤ b) : cfg.Cuts text (.nameRead b.name depth b.pos) := by
  have hname : b.name.toList = b.rest.takeWhile isNameChar := String.toList_ofList
  refine ⟨b.rest, Cursor.dropBytes?_of_le hb, hname, ?_⟩
  rw [hname]
  exact Cursor.slice?_of_passes hb (b.passes_skipWhile isNameChar)

theorem cuts_spanEvent {k : Kind} (hc : .start text ≤ c) :
    cfg.Cuts text (spanEvent cfg.quoting k c) :=
  ⟨c.rest, Cursor.dropBytes?_of_le hc, Cursor.slice?_of_passes hc (c.passes_skipSpan k cfg.quoting)⟩

theorem cuts_rawEvent (hc : .start text ≤ c) : cfg.Cuts text (rawEvent c) :=
  ⟨c.pos, c.rest, Cursor.dropBytes?_of_le hc,
    Cursor.slice?_of_passes hc (c.passes_skipWhile Cursor.isRawChar), String.toList_ofList⟩

theorem Invocation.Emits.cuts {i : Invocation} {x : Event} (h : i.Emits cfg x)
    (hi : .start text ≤ i.place) : cfg.Cuts text x := by
  cases h with
  | @name depth c b _ hb =>
      exact cuts_nameRead (Cursor.le_trans (Cursor.le_trans hi c.le_skipSpace) hb.le)
  | span _ => exact cuts_spanEvent hi
  | raw _ => exact cuts_rawEvent hi

theorem cuts_of_mem_run (cfg : Config) (text : List Char) :
    ∀ x ∈ (cfg.run text).events, cfg.Cuts text x := by
  intro x hx
  cases x with
  | nameRead | rawRead | spanScanned =>
      obtain ⟨i, hi, hemits⟩ := (mem_run_iff rfl).mp hx
      exact hemits.cuts hi.le
  | finished | failed => exact trivial

namespace Cursor

structure IsSafe (text : List Char) : Prop where
  script : ∀ is i, ∃ s past, visited text is = s :: past ∧ History text (s :: past) ∧
    Cursor.script text (is ++ [i]) = Cursor.script text is ++ [s.step text i]
  predicate : ∀ (σ : Type) (p : σ → Char → Bool × σ) (q : σ) (c : Cursor),
    ∃ n, skipWhileFrom p q c.pos c.rest = c.skip n
  place : ∀ ss, History text ss → ∀ s ∈ ss, s.current.pos ≤ byteLength text ∧
    dropBytes? text s.current.pos = some s.current.rest
  move : ∀ s past i, History text (s :: past) → i ≠ .restore →
    s.current.pos ≤ (s.step text i).2.current.pos ∧
      ∃ t, slice? text s.current.pos (s.step text i).2.current.pos = some t ∧
        i.Takes t (s.step text i).2.current.rest (s.step text i).1
  slice : ∀ ss, History text ss → ∀ s ∈ ss, ∀ s' ∈ ss, s.current.pos ≤ s'.current.pos →
    ∃ u t w, text = u ++ (t ++ w) ∧ byteLength u = s.current.pos ∧
      byteLength (u ++ t) = s'.current.pos ∧
      ∀ s'' : State, s''.step text (.slice s.current.pos s'.current.pos) = (.text t, s'')
  parser : ∀ cfg : Config, ∀ e ∈ (cfg.run text).events, cfg.Cuts text e

/-- A cursor is always at a character, moves over what it takes, and cuts out the text between any
two places where it has been. So does a parser. -/
theorem isSafe (text : List Char) : IsSafe text where
  script is i := by
    obtain ⟨s, past, hpast, hs, hnext⟩ := History.start.run is
    exact ⟨s, past, hpast, hs, hnext i⟩
  predicate _ p q c := exists_skipWhileFrom_eq p q c.pos c.rest
  place _ h _ hs := ⟨pos_le_byteLength (h.start_le hs), dropBytes?_of_le (h.start_le hs)⟩
  move s _ i h hi := by
    obtain ⟨t, hpasses, htakes⟩ := exists_takes_step text s hi
    exact ⟨pos_le hpasses.le, t, slice?_of_passes (h.start_le List.mem_cons_self) hpasses, htakes⟩
  slice _ h _ hs _ hs' hle := exists_slice (h.start_le hs) (h.start_le hs') hle
  parser cfg := cuts_of_mem_run cfg text

/-- The accented letter takes two bytes, and no place is between them. -/
theorem isSafe_accented :
    let text := ['$', 'f', '(', 'é', ')']
    let is : List Step := [.next, .skipWhile isNameChar, .save, .next, .next, .restore]
    (visited text is).map (·.current.pos) = [2, 5, 3, 2, 2, 1, 0] ∧
      (∃ u t w, text = u ++ (t ++ w) ∧ byteLength u = 3 ∧ byteLength (u ++ t) = 5 ∧
        ∀ s : State, s.step text (.slice 3 5) = (.text t, s)) ∧
      slice? text 3 4 = none ∧
      ∃ m s, dropBytes? text m = some s ∧ slice? text m 5 = some (s.takeWhile isRawChar) ∧
        "é".toList = trim (s.takeWhile isRawChar) := by
  intro text is
  have hpositions : (visited text is).map (·.current.pos) = [2, 5, 3, 2, 2, 1, 0] := by decide
  have hraw : .rawRead "é" 5 ∈ ((⟨1, .naive⟩ : Config).run text).events := by
    have hevents : ((⟨1, .naive⟩ : Config).run text).events =
        [.nameRead "f" 1 1, .rawRead "é" 5, .finished "f" 1 6] := by
      with_unfolding_all rfl
    rw [hevents]
    decide
  obtain ⟨s, past, hpast, hs, -⟩ := (isSafe text).script is .position
  have hmem : ∀ n ∈ [2, 5, 3, 2, 2, 1, 0], ∃ s' ∈ s :: past, s'.current.pos = n := by
    rw [← hpositions, hpast]
    intro n hn
    exact List.mem_map.mp hn
  obtain ⟨s₁, hs₁, h₁⟩ := hmem 3 (by decide)
  obtain ⟨s₂, hs₂, h₂⟩ := hmem 5 (by decide)
  have hslice := (isSafe text).slice _ hs s₁ hs₁ s₂ hs₂ (by rw [h₁, h₂]; decide)
  rw [h₁, h₂] at hslice
  exact ⟨hpositions, hslice, by decide, (isSafe text).parser _ _ hraw⟩

end Cursor

end SigilCall
