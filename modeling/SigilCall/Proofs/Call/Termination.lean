import SigilCall.Proofs.Call.Emission
import SigilCall.Proofs.Call.Exactness

namespace SigilCall

open Text Literal Relation

namespace Argument

mutual

def calls : Argument → Nat
  | .call _ args => callsList args + 1
  | _ => 0

def callsList : List Argument → Nat
  | [] => 0
  | a :: args => a.calls + callsList args

end

mutual

def slots : Argument → Nat
  | .call _ args => args.length + slotsList args
  | _ => 0

def slotsList : List Argument → Nat
  | [] => 0
  | a :: args => a.slots + slotsList args

end

end Argument

def Call.calls (v : Call) : Nat := v.toArgument.calls

def Call.slots (v : Call) : Nat := v.toArgument.slots

variable {cfg : Config} {mode : Quoting} {depth : Nat} {c : Cursor} {a : Argument} {v : Call}
  {args : List Argument} {s : List Char}

theorem size_of_ofJson? {v : Json} (h : Argument.ofJson? v = some a) : 2 * a.calls + a.slots = 0 := by
  cases v <;> cases h <;> rfl

mutual

/-- A call has its sigil, two parentheses, and a comma between two arguments. -/
theorem size_le_of_derives {mode : Quoting} {s : List Char} {v : Call} (h : Derives mode s v) :
    2 * v.calls + v.slots ≤ s.length := by
  match h with
  | @Derives.call _ name u body args _ _ hl =>
      have hlist := size_le_of_derivesList hl
      simp only [Call.calls, Call.slots, Call.toArgument, Argument.calls, Argument.slots,
        List.length_cons, List.length_append, List.length_nil]
      omega

theorem size_le_of_derivesList {mode : Quoting} {s : List Char} {args : List Argument}
    (h : DerivesList mode s args) :
    2 * Argument.callsList args + (args.length + Argument.slotsList args) ≤ s.length + 1 := by
  match h with
  | .one ha =>
      have hfirst := size_le_of_derivesArgument ha
      simp only [Argument.callsList, Argument.slotsList, List.length_cons, List.length_nil]
      omega
  | .more ha hl =>
      have hfirst := size_le_of_derivesArgument ha
      have hrest := size_le_of_derivesList hl
      simp only [Argument.callsList, Argument.slotsList, List.length_cons, List.length_append]
      omega

theorem size_le_of_derivesArgument {mode : Quoting} {s : List Char} {a : Argument}
    (h : DerivesArgument mode s a) : 2 * a.calls + a.slots ≤ s.length := by
  match h with
  | .call _ hc _ =>
      have hcall := size_le_of_derives hc
      simp only [List.length_append]
      exact Nat.le_trans hcall (by omega)
  | .literal _ _ _ ha _ =>
      rw [size_of_ofJson? ha]
      exact Nat.zero_le _
  | .raw _ => exact Nat.zero_le _

end

theorem size_le_of_leadingCall {text : String} {n : Nat} (h : cfg.leadingCall text = .ok (v, n)) :
    2 * v.calls + v.slots ≤ n := by
  obtain ⟨u, t, htake, -, ht, -⟩ := exists_derives_of_leadingCall h
  obtain ⟨w, -, rfl⟩ := takeBytes?_eq_some htake
  have hsize := size_le_of_derives ht
  have hlength := length_le_byteLength (u ++ t)
  rw [List.length_append] at hlength
  omega

/-- Why a parser comes to an end, whatever its limit, and how much it can do until then. The readings
that a run comes to are those of its events. Each has less text left than the one that starts it, or
is of a lower rank. -/
structure Config.Terminates (cfg : Config) : Prop where
  measure_lt : ∀ i j, Invokes cfg i j → Prod.Lex (· < ·) (· < ·) j.measure i.measure
  wellFounded : WellFounded fun j i => Invokes cfg i j
  obeys : ∀ i : Invocation, i.Obeys cfg
  events : ∀ text x, x.level = .trace →
    (x ∈ (cfg.run text).events ↔ ∃ i, cfg.Enters text i ∧ i.Emits cfg x)
  nested_later : ∀ depth c depth' c',
    TransGen (Invokes cfg) (.call depth c) (.call depth' c') → c.pos < c'.pos
  rest_after_comma : ∀ depth c depth' e, Invokes cfg (.list depth c) (.list depth' e) →
    ∃ d, c ≤ d ∧ d.Passes [','] e
  entered : ∀ text depth c, cfg.Enters text (.call depth c) → 1 ≤ depth ∧
    2 * (depth - 1) ≤ c.pos ∧ (byteLength text < UInt64.size → depth + 1 < UInt64.size)
  output : ∀ text v n, cfg.leadingCall text = .ok (v, n) → 2 * v.calls + v.slots ≤ n

theorem rest_after_comma {depth' : Nat} {e : Cursor}
    (h : Invokes cfg (.list depth c) (.list depth' e)) : ∃ d, c ≤ d ∧ d.Passes [','] e := by
  cases h with
  | @rest _ _ d _ _ _ ha he =>
      exact ⟨d.skipSpace, Cursor.le_trans c.le_skipSpace
        (Cursor.le_trans (le_of_readsArgument ha) d.le_skipSpace), he⟩

theorem Config.Enters.depth_le {text : List Char} (h : cfg.Enters text (.call depth c)) :
    1 ≤ depth ∧ 2 * (depth - 1) ≤ c.pos ∧
      (byteLength text < UInt64.size → depth + 1 < UInt64.size) := by
  have hdepth : 1 ≤ depth := h.isPaid.call depth c rfl
  have hlevel : 2 * (depth - 1) ≤ c.pos := h.isPaid.level
  refine ⟨hdepth, hlevel, fun htext => ?_⟩
  have hle : c.pos ≤ byteLength text := Cursor.pos_le_byteLength h.le
  have hsize : 5 < UInt64.size := by decide
  omega

theorem Config.terminates (cfg : Config) : cfg.Terminates where
  measure_lt _ _ h := h.measure_lt
  wellFounded := wellFounded_invokes cfg
  obeys := SigilCall.obeys cfg
  events _ _ hx := mem_run_iff hx
  nested_later _ _ _ _ h := pos_lt_of_transGen h
  rest_after_comma _ _ _ _ h := rest_after_comma h
  entered _ _ _ h := h.depth_le
  output _ _ _ h := size_le_of_leadingCall h

/-- A call without a name in another one meets the bounds. -/
theorem Config.terminates_nested :
    let cfg : Config := ⟨2, .naive⟩
    let v : Call := ⟨"", [.call "" [.raw ""]]⟩
    (cfg.leadingCall "$($())" = .ok (v, 6) ∧ 2 * v.calls + v.slots ≤ 6 ∧ 2 * v.calls + v.slots = 6) ∧
      cfg.Enters "$($())".toList (.call 2 ⟨2, ['$', '(', ')', ')']⟩) ∧ 2 * (2 - 1) ≤ 2 := by
  intro cfg v
  have h : cfg.leadingCall "$($())" = .ok (v, 6) := by
    dsimp only [cfg, v]
    with_unfolding_all rfl
  have hopens : Opens (.start "$($())".toList) ⟨1, ['(', '$', '(', ')', ')']⟩
      ⟨2, ['$', '(', ')', ')']⟩ := ⟨⟨rfl, rfl⟩, ⟨rfl, rfl⟩⟩
  have henters : cfg.Enters "$($())".toList (.call 2 ⟨2, ['$', '(', ')', ')']⟩) :=
    ((ReflTransGen.single (.arguments (by decide) hopens)).tail .first).tail (.nested rfl)
  exact ⟨⟨h, (terminates cfg).output _ v 6 h, rfl⟩, henters, ((terminates cfg).entered _ _ _ henters).2.1⟩

end SigilCall
