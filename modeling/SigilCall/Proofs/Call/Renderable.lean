import SigilCall.Proofs.Call.Rendering
import SigilCall.Proofs.Json.Levels

namespace SigilCall

open Text Literal

namespace Text

variable {s t : List Char}

theorem trim_prefix_dropWhile (s : List Char) : trim s <+: s.dropWhile isSpace := by
  rw [trim, ← List.reverse_suffix, List.reverse_reverse]
  exact List.dropWhile_suffix isSpace

theorem head?_mono {x : Char} (h : s <+: t) (hx : s.head? = some x) : t.head? = some x := by
  obtain ⟨u, rfl⟩ := h
  rw [List.head?_append, hx]
  rfl

theorem halts_trim (s : List Char) : Halts isSpace (trim s) := fun x hx =>
  halts_dropWhile isSpace s x (head?_mono (trim_prefix_dropWhile s) hx)

theorem dropWhile_of_halts {p : Char → Bool} (h : Halts p s) : s.dropWhile p = s := by
  have hnil : ∀ x ∈ ([] : List Char), p x = true := by simp
  exact dropWhile_append_eq hnil h

@[simp] theorem trim_trim (s : List Char) : trim (trim s) = trim s := by
  have hreverse : (trim s).reverse = (s.dropWhile isSpace).reverse.dropWhile isSpace := by
    rw [trim, List.reverse_reverse]
  rw [trim, dropWhile_of_halts (halts_trim s), hreverse, dropWhile_of_halts (halts_dropWhile _ _)]
  rfl

end Text

theorem isRaw_trim {s : List Char} (h : IsRaw s) : IsRaw (trim s) := by
  refine ⟨fun x hx => ?_, fun x hx => ?_⟩
  · exact h.1 x ((List.dropWhile_suffix isSpace).subset ((trim_prefix_dropWhile s).subset hx))
  · rw [dropWhile_of_halts (halts_trim s)] at hx
    exact h.2 x (head?_mono (trim_prefix_dropWhile s) hx)

structure Argument.IsRegular (a : Argument) : Prop where
  plain : a.IsPlain
  keys : a.HasDistinctKeys

theorem isRegular_of_decode {t : List Char} {v : Json} {a : Argument} (hv : Json.decode t = .ok v)
    (ha : Argument.ofJson? v = some a) : a.IsRegular := by
  obtain ⟨_, _, _, _, _, hw, _⟩ := Json.decode_eq_ok_iff.mp hv
  obtain ⟨hlevels, hkeys⟩ := Json.wellFormed_of_writes hw
  cases v with
  | object es =>
      cases ha
      exact ⟨hlevels, hkeys⟩
  | array vs =>
      cases ha
      exact ⟨hlevels, hkeys⟩
  | _ => cases ha

theorem isRegular_raw {s : List Char} (h : IsRaw s) :
    (Argument.raw (String.ofList (trim s))).IsRegular := by
  refine ⟨⟨?_, ?_⟩, trivial⟩
  · rw [String.toList_ofList]
    exact isRaw_trim h
  · rw [String.toList_ofList]
    exact trim_trim s

theorem ne_nil_of_derivesList {mode : Quoting} {t : List Char} {args : List Argument}
    (h : DerivesList mode t args) : args ≠ [] := by
  cases h <;> exact List.cons_ne_nil _ _

mutual

theorem isRegular_of_derives {mode : Quoting} {t : List Char} {c : Call} (h : Derives mode t c)
    (level : Nat) : ∀ x ∈ c.toArgument.preorder level, x.2.IsRegular := by
  match h with
  | .call hn _ hl =>
      have hname : (Argument.call (String.ofList _) _).IsPlain :=
        ⟨by rw [String.toList_ofList]; exact hn, ne_nil_of_derivesList hl⟩
      exact Argument.forall_preorder_call.mpr
        ⟨⟨hname, trivial⟩, isRegular_of_derivesList hl (level + 1)⟩

theorem isRegular_of_derivesList {mode : Quoting} {t : List Char} {args : List Argument}
    (h : DerivesList mode t args) (level : Nat) :
    ∀ x ∈ Argument.preorderList level args, x.2.IsRegular := by
  match h with
  | .one ha =>
      exact Argument.forall_preorderList_cons.mpr
        ⟨isRegular_of_derivesArgument ha level, fun x hx => nomatch hx⟩
  | .more ha hl =>
      exact Argument.forall_preorderList_cons.mpr
        ⟨isRegular_of_derivesArgument ha level, isRegular_of_derivesList hl level⟩

theorem isRegular_of_derivesArgument {mode : Quoting} {t : List Char} {a : Argument}
    (h : DerivesArgument mode t a) (level : Nat) : ∀ x ∈ a.preorder level, x.2.IsRegular := by
  match h with
  | .call _ hc _ => exact isRegular_of_derives hc level
  | .literal _ _ hv ha _ =>
      rw [Argument.preorder_of_ofJson? ha]
      exact List.forall_mem_singleton.mpr (isRegular_of_decode hv ha)
  | .raw hs => exact Argument.forall_preorder_raw.mpr (isRegular_raw hs)

end

end SigilCall
