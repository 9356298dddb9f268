import SigilCall.Proofs.Call.Completeness
import SigilCall.Proofs.Runs

namespace SigilCall

open Text Literal

variable {cfg : Config} {s t u rest : List Char} {v : Call} {n : Nat}

theorem run_eq_ok_iff_derives :
    (cfg.run s).result = .ok (v, n) ↔
      ∃ u t rest, s = (u ++ t) ++ rest ∧ n = byteLength (u ++ t) ∧ IsSpaces u ∧
        Derives cfg.quoting t v ∧ v.depth ≤ cfg.maxDepth := by
  rw [run_eq_ok_iff_reads]
  constructor
  · rintro ⟨es, g, h, rfl⟩
    obtain ⟨u, t, hp, hu, ht, hd⟩ := callSound_of_reads h v g rfl
    obtain ⟨hs, hpos⟩ := Cursor.eq_of_passes_start hp
    exact ⟨u, t, g.rest, hs, hpos, hu, ht, Nat.le_of_succ_le_succ hd⟩
  · rintro ⟨u, t, rest, rfl, rfl, hu, ht, hd⟩
    have hp := Cursor.passes_start (u ++ t) rest
    obtain ⟨es, _, h, rfl⟩ := (callComplete_of_derives ht rfl hu hp).fits hd
    exact ⟨es, _, h, rfl⟩

theorem exists_derives_of_leadingCall {text : String} (h : cfg.leadingCall text = .ok (v, n)) :
    ∃ u t, takeBytes? text.toList n = some (u ++ t) ∧ IsSpaces u ∧ Derives cfg.quoting t v ∧
      v.depth ≤ cfg.maxDepth := by
  obtain ⟨u, t, rest, hs, hn, h⟩ := run_eq_ok_iff_derives.mp h
  exact ⟨u, t, takeBytes?_eq_some_iff.mpr ⟨rest, hs, hn⟩, h⟩

theorem leadingCall_of_derives {text : String} (hn : takeBytes? text.toList n = some (u ++ t))
    (hu : IsSpaces u) (ht : Derives cfg.quoting t v) (hd : v.depth ≤ cfg.maxDepth) :
    cfg.leadingCall text = .ok (v, n) := by
  obtain ⟨rest, hs, hn⟩ := takeBytes?_eq_some_iff.mp hn
  exact run_eq_ok_iff_derives.mpr ⟨u, t, rest, hs, hn, hu, ht, hd⟩

/-- A call is read from the start of a text, up to an offset, exactly if the text up to there is that
of the call by the grammar and the call is within the limit. -/
theorem leadingCall_eq_ok_iff (cfg : Config) (text : String) (v : Call) (n : Nat) :
    cfg.leadingCall text = .ok (v, n) ↔
      ∃ u t, takeBytes? text.toList n = some (u ++ t) ∧ IsSpaces u ∧ Derives cfg.quoting t v ∧
        v.depth ≤ cfg.maxDepth := by
  refine ⟨exists_derives_of_leadingCall, ?_⟩
  rintro ⟨u, t, hn, hu, ht, hd⟩
  exact leadingCall_of_derives hn hu ht hd

/-- A call is read to the end of a text exactly if the text is that of the call by the grammar. -/
theorem leadingCall_eq_ok_byteLength_iff :
    cfg.leadingCall (.ofList s) = .ok (v, byteLength s) ↔
      ∃ u t, s = u ++ t ∧ IsSpaces u ∧ Derives cfg.quoting t v ∧ v.depth ≤ cfg.maxDepth := by
  rw [leadingCall_ofList, run_eq_ok_iff_derives]
  constructor
  · rintro ⟨u, t, rest, hs, hlength, h⟩
    have hrest : rest = [] := by
      rw [hs, byteLength_append _ rest] at hlength
      exact eq_nil_of_byteLength_eq_zero (by omega)
    rw [hrest, List.append_nil] at hs
    exact ⟨u, t, hs, h⟩
  · rintro ⟨u, t, rfl, h⟩
    exact ⟨u, t, [], (List.append_nil _).symm, rfl, h⟩

/-- A text of the grammar with too many calls in each other fails for that. -/
theorem run_eq_tooDeep (hu : IsSpaces u) (ht : Derives cfg.quoting t v)
    (hd : cfg.maxDepth < v.depth) :
    ∃ n, (cfg.run ((u ++ t) ++ rest)).result = .error (.tooDeep cfg.maxDepth n) := by
  obtain ⟨es, n, h⟩ :=
    (callComplete_of_derives ht rfl hu (Cursor.passes_start (u ++ t) rest)).tooDeep hd
  exact ⟨n, run_eq_error_iff_reads.mpr ⟨es, h⟩⟩

end SigilCall
