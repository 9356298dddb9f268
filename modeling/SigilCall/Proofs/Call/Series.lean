import SigilCall.Call.Series
import SigilCall.Proofs.Call.Exactness

namespace SigilCall

open Text Literal

variable {cfg : Config} {text s r b : List Char} {n m : Nat} {v : Call} {x y : CallError}
  {calls calls' : List (Call × Nat)}

/-- The calls that follow each other in a text from an offset on, each with the offset where it ends
and the next one starts. The first text that does not start with a call stops them. -/
inductive Config.Continues (cfg : Config) (text : List Char) :
    Nat → List (Call × Nat) → CallError → Prop
  | stop {n : Nat} {s : List Char} {x : CallError} : dropBytes? text n = some s →
      cfg.leadingCall (.ofList s) = .error x → Continues cfg text n [] x
  | next {n m : Nat} {s : List Char} {v : Call} {calls : List (Call × Nat)} {x : CallError} :
      dropBytes? text n = some s → cfg.leadingCall (.ofList s) = .ok (v, m) →
      Continues cfg text (n + m) calls x → Continues cfg text n ((v, n + m) :: calls) x

theorem result_run (cfg : Config) (s : List Char) :
    (cfg.run s).result = (Read.call cfg 1 (.start s)).result.map fun r => (r.value, r.stop.pos) := by
  rw [Config.run]
  generalize Read.call cfg 1 (.start s) = r
  obtain ⟨es, x | r⟩ := r <;> rfl

theorem dropBytes?_add (h : dropBytes? text n = some s) (hr : dropBytes? s m = some r) :
    dropBytes? text (n + m) = some r := by
  obtain ⟨u, rfl, rfl⟩ := dropBytes?_eq_some_iff.mp h
  obtain ⟨t, rfl, rfl⟩ := dropBytes?_eq_some_iff.mp hr
  rw [← byteLength_append, ← List.append_assoc]
  exact dropBytes?_byteLength _ _

theorem continues_seriesFrom (cfg : Config) (h : dropBytes? text n = some s) :
    cfg.Continues text n (cfg.seriesFrom n s).calls (cfg.seriesFrom n s).stop := by
  fun_induction cfg.seriesFrom n s with
  | case1 n s x hx =>
      refine .stop h ?_
      rw [leadingCall_ofList, result_run, hx]
      rfl
  | case2 n s c hc _ tail ih =>
      refine .next h ?_ (ih (dropBytes?_add h (Cursor.dropBytes?_of_le c.ahead)))
      rw [leadingCall_ofList, result_run, hc]
      rfl

namespace Config.Continues

theorem unique (h : cfg.Continues text n calls x) (h' : cfg.Continues text n calls' y) :
    calls = calls' ∧ x = y := by
  induction h generalizing calls' with
  | stop hs hx =>
      cases h' with
      | stop hs' hx' =>
          cases hs.symm.trans hs'
          cases hx.symm.trans hx'
          exact ⟨rfl, rfl⟩
      | next hs' hv _ =>
          cases hs.symm.trans hs'
          cases hx.symm.trans hv
  | next hs hv _ ih =>
      cases h' with
      | stop hs' hx =>
          cases hs.symm.trans hs'
          cases hv.symm.trans hx
      | next hs' hv' hrest =>
          cases hs.symm.trans hs'
          cases hv.symm.trans hv'
          obtain ⟨rfl, rfl⟩ := ih hrest
          exact ⟨rfl, rfl⟩

theorem exists_dropBytes? (h : cfg.Continues text n calls x) : ∃ s, dropBytes? text n = some s := by
  cases h with
  | stop hs _ | next hs _ _ => exact ⟨_, hs⟩

theorem exists_dropBytes?_of_mem (h : cfg.Continues text n calls x) :
    ∀ c ∈ calls, ∃ s, dropBytes? text c.2 = some s := by
  induction h with
  | stop _ _ =>
      intro c hc
      cases hc
  | next _ _ hrest ih => exact List.forall_mem_cons.mpr ⟨hrest.exists_dropBytes?, ih⟩

end Config.Continues

theorem continues_series (cfg : Config) (text : String) :
    cfg.Continues text.toList 0 (cfg.series text).calls (cfg.series text).stop :=
  continues_seriesFrom cfg (dropBytes?_byteLength [] text.toList)

theorem series_eq_iff {text : String} :
    cfg.series text = ⟨calls, x⟩ ↔ cfg.Continues text.toList 0 calls x := by
  constructor
  · intro h
    have hseries := continues_series cfg text
    rwa [h] at hseries
  · intro h
    obtain ⟨hcalls, hx⟩ := (continues_series cfg text).unique h
    rw [← hcalls, ← hx]

/-- A text of a call has a sigil and two parentheses. -/
theorem three_le_byteLength {mode : Quoting} (h : Derives mode s v) : 3 ≤ byteLength s := by
  have hlength := length_le_byteLength s
  cases h with
  | call _ _ _ =>
      simp only [List.length_cons, List.length_append] at hlength
      omega

theorem three_le_of_run (h : (cfg.run s).result = .ok (v, n)) : 3 ≤ n := by
  obtain ⟨u, t, r, -, rfl, -, ht, -⟩ := run_eq_ok_iff_derives.mp h
  have hle := three_le_byteLength ht
  rw [byteLength_append]
  omega

theorem Config.Continues.length_le (h : cfg.Continues text n calls x) :
    n + 3 * calls.length ≤ byteLength text := by
  induction h with
  | stop hs _ =>
      obtain ⟨u, rfl, rfl⟩ := dropBytes?_eq_some_iff.mp hs
      simp
  | next _ hv _ ih =>
      rw [leadingCall_ofList] at hv
      have hle := three_le_of_run hv
      rw [List.length_cons]
      omega

structure Config.Piece (cfg : Config) where
  blanks : List Char
  body : List Char
  call : Call
  isSpaces : IsSpaces blanks
  reads : cfg.leadingCall (.ofList body) = .ok (call, byteLength body)

namespace Config.Piece

def whole (p : cfg.Piece) : List Char := p.blanks ++ p.body

def place (n : Nat) : List cfg.Piece → List (Call × Nat)
  | [] => []
  | p :: ps => (p.call, n + byteLength p.whole) :: place (n + byteLength p.whole) ps

theorem run_append (p : cfg.Piece) (r : List Char) :
    (cfg.run (p.whole ++ r)).result = .ok (p.call, byteLength p.whole) := by
  obtain ⟨u, t, hbody, hu, ht, hd⟩ := leadingCall_eq_ok_byteLength_iff.mp p.reads
  have hwhole : p.whole = (p.blanks ++ u) ++ t := by
    rw [whole, hbody, List.append_assoc]
  rw [hwhole]
  exact run_eq_ok_iff_derives.mpr ⟨_, t, r, rfl, rfl, isSpaces_append p.isSpaces hu, ht, hd⟩

theorem continues_place (ps : List cfg.Piece) {u : List Char}
    (hx : cfg.leadingCall (.ofList r) = .error x) :
    cfg.Continues (u ++ (ps.flatMap whole ++ r)) (byteLength u) (place (byteLength u) ps) x := by
  induction ps generalizing u with
  | nil => exact .stop (dropBytes?_byteLength _ _) hx
  | cons p ps ih =>
      have hrun : cfg.leadingCall (.ofList (p.whole ++ (ps.flatMap whole ++ r))) = _ :=
        (leadingCall_ofList cfg _).trans (p.run_append _)
      have hrest := ih (u := u ++ p.whole)
      rw [byteLength_append, List.append_assoc] at hrest
      rw [List.flatMap_cons, List.append_assoc]
      exact .next (dropBytes?_byteLength _ _) hrun hrest

end Config.Piece

/-- The calls of a text in a row are well defined, also their offsets, and take three bytes or more
each. Those of pieces in a row are the calls of the pieces, and what follows the pieces stops them
as it stops a reading on its own. -/
theorem series_of_pieces (cfg : Config) :
    (∀ (text : String) (calls : List (Call × Nat)) (x : CallError),
      cfg.series text = ⟨calls, x⟩ ↔ cfg.Continues text.toList 0 calls x) ∧
    (∀ text : String, 3 * (cfg.series text).calls.length ≤ byteLength text.toList ∧
      ∀ c ∈ (cfg.series text).calls, ∃ s, dropBytes? text.toList c.2 = some s) ∧
    ∀ (ps : List cfg.Piece) (tail : List Char) (x : CallError),
      cfg.leadingCall (.ofList tail) = .error x →
      cfg.series (.ofList (ps.flatMap Config.Piece.whole ++ tail)) = ⟨Config.Piece.place 0 ps, x⟩ := by
  refine ⟨fun text calls x => series_eq_iff, fun text => ?_, fun ps tail x hx => ?_⟩
  · have hseries := continues_series cfg text
    have hlength := hseries.length_le
    rw [Nat.zero_add] at hlength
    exact ⟨hlength, hseries.exists_dropBytes?_of_mem⟩
  · rw [series_eq_iff, String.toList_ofList]
    exact Config.Piece.continues_place (u := []) ps hx

/-- Two calls with a blank between them, and a comma that stops them. -/
theorem series_of_pieces_two :
    let cfg : Config := ⟨1, .naive⟩
    cfg.leadingCall (.ofList ", $h()".toList) = .error (.missing .sigil 0) ∧
      cfg.series (.ofList ("$f(x) $g()".toList ++ ", $h()".toList)) =
        ⟨[(⟨"f", [.raw "x"]⟩, 5), (⟨"g", [.raw ""]⟩, 10)], .missing .sigil 0⟩ := by
  intro cfg
  have hx : cfg.leadingCall (.ofList ", $h()".toList) = .error (.missing .sigil 0) := by
    with_unfolding_all rfl
  let p : cfg.Piece := ⟨[], "$f(x)".toList, ⟨"f", [.raw "x"]⟩, isSpaces_nil, by
    with_unfolding_all rfl⟩
  let q : cfg.Piece := ⟨[' '], "$g()".toList, ⟨"g", [.raw ""]⟩, by simp [IsSpaces, isSpace], by
    with_unfolding_all rfl⟩
  exact ⟨hx, (series_of_pieces cfg).2.2 [p, q] _ _ hx⟩

end SigilCall
