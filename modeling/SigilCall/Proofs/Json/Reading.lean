import SigilCall.Json.Reader
import SigilCall.Proofs.Except
import SigilCall.Proofs.Passage

namespace SigilCall.Json.Read

open Text

variable {α β : Type} {c d e : Cursor}

def Yields (o : Outcome α c) (a : α) (d : Cursor) : Prop := ∃ h, o = .ok ⟨a, d, h⟩

theorem passes_skipBlank (c : Cursor) :
    ∃ b, c.Passes b (skipBlank c) ∧ ∀ x ∈ b, isBlank x = true :=
  ⟨_, c.passes_skipWhile isBlank, List.all_eq_true.mp List.all_takeWhile⟩

theorem skipBlank_eq {b : List Char} (h : c.Passes b d) (hb : ∀ x ∈ b, isBlank x = true)
    (hd : Halts isBlank d.rest) : skipBlank c = d := Cursor.skipWhile_eq h hb hd

theorem word_of_passes {xs : List Char} (h : c.Passes xs d) : Yields (word c xs) () d := by
  induction xs generalizing c with
  | nil =>
      obtain rfl := h.eq_of_nil
      exact ⟨d.le_refl, rfl⟩
  | cons x xs ih =>
      obtain ⟨e, he, hd⟩ := h.split_cons
      obtain ⟨hle, hw⟩ := ih hd
      rw [word]
      split
      · next hn =>
          rw [Cursor.next?_eq_some_iff.mpr he] at hn
          cases hn
      · next y e' hn =>
          rw [Cursor.next?_eq_some_iff.mpr he] at hn
          cases hn
          rw [if_pos rfl, hw]
          exact ⟨h.le, rfl⟩

theorem passes_of_word {xs : List Char} {r : Reading Unit c} (h : word c xs = .ok r) :
    c.Passes xs r.stop := by
  induction xs generalizing c with
  | nil =>
      cases h
      exact c.passes_nil
  | cons x xs ih =>
      rw [word] at h
      split at h
      · cases h
      · next y e hn =>
          split at h
          · next hx =>
              obtain ⟨s, hs, rfl⟩ := Except.map_eq_ok_iff.mp h
              exact (hx ▸ Cursor.next?_eq_some_iff.mp hn).trans (ih hs)
          · cases h

end SigilCall.Json.Read
