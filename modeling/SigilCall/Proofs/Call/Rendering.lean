import SigilCall.Call.Renderable
import SigilCall.Proofs.Call.Soundness
import SigilCall.Proofs.Literal.Rendering

namespace SigilCall

open Text Literal

variable {mode : Quoting} {s t u : List Char} {args : List Argument}

theorem derivesList_append_left (hu : IsSpaces u) (h : DerivesList mode t args) :
    DerivesList mode (u ++ t) args := by
  cases h with
  | one ha =>
      have := derivesArgument_append hu ha isSpaces_nil
      rw [List.append_nil] at this
      exact .one this
  | more ha hl =>
      have := DerivesList.more (derivesArgument_append hu ha isSpaces_nil) hl
      rwa [List.append_nil, List.append_assoc] at this

structure Argument.IsFaithful (a : Argument) : Prop where
  plain : a.IsPlain
  exact : ∀ v ∈ a.parts, v.IsExact

theorem derives_call {name : String} (hn : IsName name.toList) (hl : DerivesList mode t args) :
    Derives mode ('$' :: (name.toList ++ '(' :: (t ++ [')']))) ⟨name, args⟩ := by
  have := Derives.call hn isSpaces_nil hl
  rwa [String.ofList_toList] at this

theorem derivesArgument_literal {k : Kind} {v : Json} {a : Argument} (hl : IsLiteral k mode v.render)
    (hv : v.levels ≤ Json.maxLevels) (h : ∀ w ∈ v.parts, w.IsExact)
    (ha : Argument.ofJson? v = some a) : DerivesArgument mode v.render a := by
  have hdecode := Json.decode_of_writes (Json.writes_render v hv h)
  have := DerivesArgument.literal isSpaces_nil hl hdecode ha isSpaces_nil
  rwa [List.append_nil, List.nil_append] at this

namespace Argument

variable {P : Nat × Argument → Prop} {level : Nat} {name : String} {a : Argument}

theorem forall_preorder_call :
    (∀ x ∈ (Argument.call name args).preorder level, P x) ↔
      P (level, .call name args) ∧ ∀ x ∈ preorderList (level + 1) args, P x := by
  rw [preorder]
  exact List.forall_mem_cons

theorem forall_preorderList_cons :
    (∀ x ∈ preorderList level (a :: args), P x) ↔
      (∀ x ∈ a.preorder level, P x) ∧ ∀ x ∈ preorderList level args, P x := by
  rw [preorderList]
  exact List.forall_mem_append

@[simp] theorem forall_preorder_object {es : List (String × Json)} :
    (∀ x ∈ (Argument.object es).preorder level, P x) ↔ P (level, .object es) := by
  simp [preorder]

@[simp] theorem forall_preorder_array {vs : List Json} :
    (∀ x ∈ (Argument.array vs).preorder level, P x) ↔ P (level, .array vs) := by
  simp [preorder]

@[simp] theorem forall_preorder_raw {s : String} :
    (∀ x ∈ (Argument.raw s).preorder level, P x) ↔ P (level, .raw s) := by
  simp [preorder]

theorem preorder_of_ofJson? {v : Json} {a : Argument} (h : ofJson? v = some a) :
    a.preorder level = [(level, a)] := by
  cases v <;> cases h <;> rfl

end Argument

mutual

theorem derivesArgument_render {mode : Quoting} {level : Nat} (a : Argument)
    (h : ∀ x ∈ a.preorder level, x.2.IsFaithful) : DerivesArgument mode a.render a := by
  match a with
  | .call name args =>
      obtain ⟨hnode, hargs⟩ := Argument.forall_preorder_call.mp h
      have hl : DerivesList mode _ args := derivesList_render args hnode.plain.2 hargs
      have := DerivesArgument.call isSpaces_nil (derives_call hnode.plain.1 hl) isSpaces_nil
      rwa [List.append_nil] at this
  | .object es =>
      have hnode := Argument.forall_preorder_object.mp h
      exact derivesArgument_literal (isLiteral_render_object es mode) hnode.plain hnode.exact rfl
  | .array vs =>
      have hnode := Argument.forall_preorder_array.mp h
      exact derivesArgument_literal (isLiteral_render_array vs mode) hnode.plain hnode.exact rfl
  | .raw s =>
      obtain ⟨hraw, htrim⟩ := (Argument.forall_preorder_raw.mp h).plain
      have : DerivesArgument mode s.toList (.raw (String.ofList (trim s.toList))) := .raw hraw
      rwa [htrim, String.ofList_toList] at this

theorem derivesList_render {mode : Quoting} {level : Nat} (args : List Argument) (hne : args ≠ [])
    (h : ∀ x ∈ Argument.preorderList level args, x.2.IsFaithful) :
    DerivesList mode (Argument.renderList args) args := by
  match args with
  | [] => exact absurd rfl hne
  | [a] =>
      obtain ⟨ha, -⟩ := Argument.forall_preorderList_cons.mp h
      exact .one (derivesArgument_render a ha)
  | a :: b :: args =>
      obtain ⟨ha, hargs⟩ := Argument.forall_preorderList_cons.mp h
      have hspace : IsSpaces [' '] := by
        intro x hx
        cases List.mem_singleton.mp hx
        rfl
      have hl : DerivesList mode _ (b :: args) := derivesList_render (b :: args) (List.cons_ne_nil _ _) hargs
      exact .more (derivesArgument_render a ha) (derivesList_append_left hspace hl)

end

/-- The text of a tree is of the grammar if each node's own text is that of the node. -/
theorem derives_render {c : Call} (h : ∀ x ∈ c.preorder, x.2.IsFaithful) :
    Derives mode c.render c := by
  obtain ⟨hnode, hargs⟩ := Argument.forall_preorder_call.mp h
  exact derives_call hnode.plain.1 (derivesList_render c.args hnode.plain.2 hargs)

end SigilCall
