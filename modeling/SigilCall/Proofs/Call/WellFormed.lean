import SigilCall.Proofs.Call.Exactness
import SigilCall.Proofs.Call.Renderable

namespace SigilCall

open Text Literal

namespace Text

variable {s t u v : List Char} {x : Char}

theorem head?_reverse_trim (h : (trim s).reverse.head? = some x) : isSpace x = false := by
  rw [trim, List.reverse_reverse] at h
  exact halts_dropWhile isSpace _ x h

theorem isInfix_trim (s : List Char) : trim s <:+: s :=
  (trim_prefix_dropWhile s).isInfix.trans (List.dropWhile_suffix isSpace).isInfix

end Text

namespace Argument

variable {text : List Char}

def OccursIn (text : List Char) : Argument → Prop
  | .call name _ => name.toList <:+: text
  | .raw s => s.toList <:+: text
  | _ => True

def IsWellFormed (text : List Char) : Argument → Prop
  | .call name args => IsName name.toList ∧ args ≠ [] ∧ name.toList <:+: text
  | .object es => (Json.object es).levels ≤ Json.maxLevels ∧ (Json.object es).KeysDistinct
  | .array vs => (Json.array vs).levels ≤ Json.maxLevels ∧ (Json.array vs).KeysDistinct
  | .raw s =>
      (∀ x ∈ s.toList, x ≠ ',' ∧ x ≠ ')') ∧
        (∀ x, s.toList.head? = some x → isSpace x = false ∧ ¬ IsSigil x) ∧
        (∀ x, s.toList.getLast? = some x → isSpace x = false) ∧ s.toList <:+: text

theorem isWellFormed_raw {s : String} (hp : (Argument.raw s).IsPlain) (ho : s.toList <:+: text) :
    (Argument.raw s).IsWellFormed text := by
  obtain ⟨⟨hchars, hfirst⟩, htrim⟩ := hp
  have hhalts : Halts isSpace s.toList := htrim ▸ halts_trim s.toList
  refine ⟨fun x hx => ?_, fun x hx => ⟨hhalts x hx, hfirst x ?_⟩, fun x hx => ?_, ho⟩
  · simpa [Cursor.isRawChar] using hchars x hx
  · rwa [dropWhile_of_halts hhalts]
  · rw [← List.head?_reverse, ← htrim] at hx
    exact head?_reverse_trim hx

theorem isWellFormed_of_isRegular {a : Argument} (h : a.IsRegular) (ho : a.OccursIn text) :
    a.IsWellFormed text := by
  match a with
  | .call _ _ => exact ⟨h.plain.1, h.plain.2, ho⟩
  | .object _ | .array _ => exact ⟨h.plain, h.keys⟩
  | .raw _ => exact isWellFormed_raw h.plain ho

end Argument

mutual

/-- A derivation puts each name and raw text of its tree into its text. -/
theorem occursIn_of_derives {mode : Quoting} {t text : List Char} {c : Call}
    (h : Derives mode t c) (ht : t <:+: text) (level : Nat) :
    ∀ x ∈ c.toArgument.preorder level, x.2.OccursIn text := by
  match h with
  | @Derives.call _ name u body _ _ _ hl =>
      have hname : name <:+: '$' :: (name ++ (u ++ '(' :: (body ++ [')']))) :=
        ⟨['$'], u ++ '(' :: (body ++ [')']), by simp⟩
      have hbody : body <:+: '$' :: (name ++ (u ++ '(' :: (body ++ [')']))) :=
        ⟨'$' :: (name ++ (u ++ ['('])), [')'], by simp⟩
      refine Argument.forall_preorder_call.mpr ⟨?_, occursIn_of_derivesList hl (hbody.trans ht) _⟩
      rw [Argument.OccursIn, String.toList_ofList]
      exact hname.trans ht

theorem occursIn_of_derivesList {mode : Quoting} {t text : List Char} {args : List Argument}
    (h : DerivesList mode t args) (ht : t <:+: text) (level : Nat) :
    ∀ x ∈ Argument.preorderList level args, x.2.OccursIn text := by
  match h with
  | .one ha =>
      exact Argument.forall_preorderList_cons.mpr
        ⟨occursIn_of_derivesArgument ha ht level, fun x hx => nomatch hx⟩
  | .more (s := s) (t := t) ha hl =>
      have hs : s <:+: s ++ ',' :: t := (List.prefix_append s (',' :: t)).isInfix
      have hrest : t <:+: s ++ ',' :: t := ⟨s ++ [','], [], by simp⟩
      exact Argument.forall_preorderList_cons.mpr
        ⟨occursIn_of_derivesArgument ha (hs.trans ht) level,
          occursIn_of_derivesList hl (hrest.trans ht) level⟩

theorem occursIn_of_derivesArgument {mode : Quoting} {t text : List Char} {a : Argument}
    (h : DerivesArgument mode t a) (ht : t <:+: text) (level : Nat) :
    ∀ x ∈ a.preorder level, x.2.OccursIn text := by
  match h with
  | .call (u := u) (t := t) (v := v) _ hc _ =>
      have hcall : t <:+: u ++ (t ++ v) := ⟨u, v, List.append_assoc u t v⟩
      exact occursIn_of_derives hc (hcall.trans ht) level
  | .literal (j := v) _ _ _ ha _ =>
      rw [Argument.preorder_of_ofJson? ha]
      refine List.forall_mem_singleton.mpr ?_
      cases v <;> cases ha <;> exact trivial
  | .raw (s := s) _ =>
      refine Argument.forall_preorder_raw.mpr ?_
      rw [Argument.OccursIn, String.toList_ofList]
      exact (isInfix_trim s).trans ht

end

variable {cfg : Config} {text : String} {c : Call}

/-- A call that was read is no deeper than the limit, and all nodes of its tree are well formed. -/
theorem isWellFormed_of_parse (h : cfg.parse text = .ok c) :
    c.depth ≤ cfg.maxDepth ∧ ∀ x ∈ c.preorder, x.2.IsWellFormed text.toList := by
  obtain ⟨⟨v, n⟩, hrun, rfl⟩ := Except.map_eq_ok_iff.mp h
  obtain ⟨u, t, rest, hs, -, -, ht, hd⟩ := run_eq_ok_iff_derives.mp hrun
  have hsub : t <:+: text.toList := ⟨u, rest, hs.symm⟩
  exact ⟨hd, fun x hx => Argument.isWellFormed_of_isRegular (isRegular_of_derives ht 1 x hx)
    (occursIn_of_derives ht hsub 1 x hx)⟩

/-- A raw text between blanks, a literal with a literal inside, and a call with an empty slot. -/
theorem isWellFormed_of_parse_nested :
    let text := "$f( a b ,\x7b\"k\":[null]\x7d, $g())"
    let c : Call := ⟨"f", [.raw "a b", .object [("k", .array [.null])], .call "g" [.raw ""]]⟩
    Config.parse ⟨2, .naive⟩ text = .ok c ∧
      c.depth ≤ 2 ∧ ∀ x ∈ c.preorder, x.2.IsWellFormed text.toList := by
  intro text c
  have h : Config.parse ⟨2, .naive⟩ text = .ok c := by
    dsimp only [text, c]
    with_unfolding_all rfl
  exact ⟨h, isWellFormed_of_parse h⟩

end SigilCall
