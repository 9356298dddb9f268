import SigilCall.Proofs.Call.Exactness
import SigilCall.Proofs.Call.Renderable
import SigilCall.Proofs.Json.Equality

namespace SigilCall

open Text Literal

namespace Argument

variable {level : Nat} {a b : Argument} {args args' : List Argument}

theorem HasDistinctKeys.nodup {es : List (String × Json)} (h : a.HasDistinctKeys)
    (hes : .object es ∈ a.parts) : (es.map Prod.fst).Nodup := by
  cases a with
  | object | array => exact h es hes
  | call | raw => cases hes

mutual

protected theorem beq_self (a : Argument) {level : Nat}
    (h : ∀ x ∈ a.preorder level, x.2.HasDistinctKeys) : a.beq a = true := by
  match a with
  | .call name args =>
      obtain ⟨-, hargs⟩ := forall_preorder_call.mp h
      rw [Argument.beq, beq_self_eq_true, beqList_self args hargs]
      rfl
  | .object es => exact Json.beq_self (.object es) (forall_preorder_object.mp h)
  | .array vs => exact Json.beq_self (.array vs) (forall_preorder_array.mp h)
  | .raw s => exact beq_self_eq_true s

theorem beqList_self (args : List Argument) {level : Nat}
    (h : ∀ x ∈ preorderList level args, x.2.HasDistinctKeys) : beqList args args = true := by
  match args with
  | [] => rfl
  | a :: args =>
      obtain ⟨ha, hargs⟩ := forall_preorderList_cons.mp h
      rw [beqList, Argument.beq_self a ha, beqList_self args hargs]
      rfl

end

mutual

theorem depth_eq_of_beq (a b : Argument) (h : a.beq b = true) : a.depth = b.depth := by
  match a, b with
  | .call _ args, .call _ args' =>
      rw [Argument.beq, Bool.and_eq_true] at h
      rw [depth_call, depth_call, depthList_eq_of_beqList args args' h.2]
  | .object _, .object _ | .array _, .array _ | .raw _, .raw _ => rfl
  | .call _ _, .object _ | .call _ _, .array _ | .call _ _, .raw _ | .object _, .call _ _
  | .object _, .array _ | .object _, .raw _ | .array _, .call _ _ | .array _, .object _
  | .array _, .raw _ | .raw _, .call _ _ | .raw _, .object _ | .raw _, .array _ => cases h

theorem depthList_eq_of_beqList (args args' : List Argument) (h : beqList args args' = true) :
    depthList args = depthList args' := by
  match args, args' with
  | [], [] => rfl
  | [], _ :: _ | _ :: _, [] => cases h
  | a :: args, b :: args' =>
      rw [beqList, Bool.and_eq_true] at h
      rw [depthList_cons, depthList_cons, depth_eq_of_beq a b h.1, depthList_eq_of_beqList args args' h.2]

end

mutual

/-- A tree equal to one that was read has the nodes of such a tree. -/
theorem isPlain_of_beq (a b : Argument) {level : Nat} (h : a.beq b = true)
    (ha : ∀ x ∈ a.preorder level, x.2.IsRegular)
    (hb : ∀ x ∈ b.preorder level, x.2.HasDistinctKeys) : ∀ x ∈ b.preorder level, x.2.IsPlain := by
  match a, b with
  | .call name args, .call name' args' =>
      rw [Argument.beq, Bool.and_eq_true, beq_iff_eq] at h
      obtain ⟨hnode, hargs⟩ := forall_preorder_call.mp ha
      obtain ⟨-, hargs'⟩ := forall_preorder_call.mp hb
      refine forall_preorder_call.mpr ⟨⟨h.1 ▸ hnode.plain.1, ?_⟩, ?_⟩
      · rintro rfl
        cases args with
        | nil => exact hnode.plain.2 rfl
        | cons => cases h.2
      · exact isPlain_of_beqList args args' h.2 hargs hargs'
  | .object es, .object fs =>
      have hnode := forall_preorder_object.mp ha
      have hlevels := Json.levels_le_of_beq (.object es) (.object fs) h hnode.keys
        (forall_preorder_object.mp hb)
      exact forall_preorder_object.mpr (Nat.le_trans hlevels hnode.plain)
  | .array vs, .array ws =>
      have hnode := forall_preorder_array.mp ha
      have hlevels := Json.levels_le_of_beq (.array vs) (.array ws) h hnode.keys
        (forall_preorder_array.mp hb)
      exact forall_preorder_array.mpr (Nat.le_trans hlevels hnode.plain)
  | .raw s, .raw t =>
      obtain rfl : s = t := eq_of_beq h
      exact forall_preorder_raw.mpr (forall_preorder_raw.mp ha).plain
  | .call _ _, .object _ | .call _ _, .array _ | .call _ _, .raw _ | .object _, .call _ _
  | .object _, .array _ | .object _, .raw _ | .array _, .call _ _ | .array _, .object _
  | .array _, .raw _ | .raw _, .call _ _ | .raw _, .object _ | .raw _, .array _ => cases h

theorem isPlain_of_beqList (args args' : List Argument) {level : Nat}
    (h : beqList args args' = true) (ha : ∀ x ∈ preorderList level args, x.2.IsRegular)
    (hb : ∀ x ∈ preorderList level args', x.2.HasDistinctKeys) :
    ∀ x ∈ preorderList level args', x.2.IsPlain := by
  match args, args' with
  | [], [] => exact fun x hx => nomatch hx
  | [], _ :: _ | _ :: _, [] => cases h
  | a :: args, b :: args' =>
      rw [beqList, Bool.and_eq_true] at h
      obtain ⟨hfirst, hrest⟩ := forall_preorderList_cons.mp ha
      obtain ⟨hfirst', hrest'⟩ := forall_preorderList_cons.mp hb
      exact forall_preorderList_cons.mpr ⟨isPlain_of_beq a b h.1 hfirst hfirst',
        isPlain_of_beqList args args' h.2 hrest hrest'⟩

end

end Argument

namespace Call

def FloatsReadBack (c : Call) : Prop :=
  ∀ x ∈ c.preorder, ∀ f h, .number (.float f h) ∈ x.2.parts →
    Json.decode (Json.Number.float f h).render = .ok (.number (.float f h))

def KeysDistinct (c : Call) : Prop := ∀ x ∈ c.preorder, x.2.HasDistinctKeys

theorem isFaithful_of_renderable {c : Call} (hf : c.FloatsReadBack) (hk : c.KeysDistinct)
    (h : c.Renderable) : ∀ x ∈ c.preorder, x.2.IsFaithful := by
  refine fun x hx => ⟨h x hx, fun v hv => ?_⟩
  cases v with
  | number y =>
      cases y with
      | integer => exact trivial
      | float f hfinite => exact hf x hx f hfinite hv
  | object es => exact (hk x hx).nodup hv
  | _ => exact trivial

end Call

variable {cfg : Config} {c d : Call}

@[simp] theorem toList_toString (c : Call) : (toString c).toList = c.render := String.toList_ofList

theorem leadingCall_toString (hf : c.FloatsReadBack) (hk : c.KeysDistinct) (h : c.Renderable)
    (hd : c.depth ≤ cfg.maxDepth) :
    cfg.leadingCall (toString c) = .ok (c, byteLength c.render) := by
  rw [Config.leadingCall, toList_toString, run_eq_ok_iff_derives]
  exact ⟨[], c.render, [], by simp, rfl, isSpaces_nil,
    derives_render (c.isFaithful_of_renderable hf hk h), hd⟩

theorem leadingCall_toString_of_lt (hf : c.FloatsReadBack) (hk : c.KeysDistinct)
    (h : c.Renderable) (hd : cfg.maxDepth < c.depth) :
    ∃ n, cfg.leadingCall (toString c) = .error (.tooDeep cfg.maxDepth n) := by
  have ht : Derives cfg.quoting c.render c := derives_render (c.isFaithful_of_renderable hf hk h)
  have : ∃ n, (cfg.run (([] ++ c.render) ++ [])).result = .error (.tooDeep cfg.maxDepth n) :=
    run_eq_tooDeep isSpaces_nil ht hd
  rwa [List.append_nil, List.nil_append, ← toList_toString] at this

theorem renderable_of_parse (hk : c.KeysDistinct) {text : String} (h : cfg.parse text = .ok d)
    (he : (d == c) = true) : c.Renderable ∧ c.depth ≤ cfg.maxDepth := by
  obtain ⟨⟨v, n⟩, hrun, rfl⟩ := Except.map_eq_ok_iff.mp h
  obtain ⟨u, t, rest, -, -, -, ht, hd⟩ := run_eq_ok_iff_derives.mp hrun
  refine ⟨Argument.isPlain_of_beq v.toArgument c.toArgument he (isRegular_of_derives ht 1) hk, ?_⟩
  have hdepth : v.depth = c.depth := Argument.depth_eq_of_beq v.toArgument c.toArgument he
  exact hdepth ▸ hd

/-- A tree is read back from its own text, up to equality, exactly if it is renderable and within
the limit, and then it is read back as it is and to the end of the text. -/
theorem parse_toString_iff (cfg : Config) (c : Call) (hf : c.FloatsReadBack)
    (hk : c.KeysDistinct) :
    ((∃ d, cfg.parse (toString c) = .ok d ∧ (d == c) = true) ↔
        c.Renderable ∧ c.depth ≤ cfg.maxDepth) ∧
      (c.Renderable → c.depth ≤ cfg.maxDepth →
        cfg.leadingCall (toString c) = .ok (c, byteLength c.render)) ∧
      (c.Renderable → cfg.maxDepth < c.depth →
        ∃ n, cfg.leadingCall (toString c) = .error (.tooDeep cfg.maxDepth n)) := by
  refine ⟨⟨?_, ?_⟩, leadingCall_toString hf hk, leadingCall_toString_of_lt hf hk⟩
  · rintro ⟨d, h, he⟩
    exact renderable_of_parse hk h he
  · rintro ⟨h, hd⟩
    refine ⟨c, ?_, ?_⟩
    · rw [Config.parse, leadingCall_toString hf hk h hd]
      rfl
    · exact Argument.beq_self c.toArgument hk

/-- A float under a key and a raw text, at the limit. -/
theorem parse_toString_iff_float :
    let x : Json.Number := .float (.ofBits 0x3FF8000000000000) (by decide +kernel)
    let c : Call := ⟨"f", [.object [("a", .number x)], .raw "y"]⟩
    c.FloatsReadBack ∧ c.KeysDistinct ∧ c.Renderable ∧ c.depth ≤ 1 ∧
      c.render = "$f(\x7b\"a\":1.5\x7d, y)".toList ∧
      Config.leadingCall ⟨1, .naive⟩ (toString c) = .ok (c, byteLength c.render) := by
  intro x c
  have hone : Json.IsWhole ['1'] := ⟨⟨List.cons_ne_nil _ _, List.all_eq_true.mp rfl⟩, fun h => nomatch h⟩
  have hfive : Json.IsDigits ['5'] := ⟨List.cons_ne_nil _ _, List.all_eq_true.mp rfl⟩
  have hwrites : Json.WritesNumeral ['1', '.', '5'] ⟨false, ['1'], ['5'], none⟩ :=
    .positive hone (.point hfive) .none
  have htext : x.render = ['1', '.', '5'] := by decide +kernel
  have hnumber : (⟨false, ['1'], ['5'], none⟩ : Json.Numeral).number? = some x := by decide +kernel
  have hfloat : Json.decode x.render = .ok (.number x) := by
    rw [htext]
    exact Json.decode_of_writes (.number hwrites hnumber)
  have hraw : IsRaw "y".toList := by
    have hy : "y".toList = ['y'] := by decide
    rw [hy]
    refine ⟨List.all_eq_true.mp rfl, ?_⟩
    rintro z ⟨⟩ (h | h) <;> cases h
  have hname : ∀ z ∈ "f".toList, isNameChar z = true := List.all_eq_true.mp rfl
  have hnodes : ∀ P : Argument → Prop, P c.toArgument → P (.object [("a", .number x)]) →
      P (.raw "y") → ∀ z ∈ c.preorder, P z.2 := by
    intro P hcall hobject hy z hz
    cases hz with
    | head => exact hcall
    | tail _ hz =>
        cases hz with
        | head => exact hobject
        | tail _ hz =>
            cases hz with
            | head => exact hy
            | tail _ hz => cases hz
  have hf : c.FloatsReadBack := by
    refine hnodes (fun a => ∀ f h, .number (.float f h) ∈ a.parts →
      Json.decode (Json.Number.float f h).render = .ok (.number (.float f h))) ?_ ?_ ?_
    · intro f h hmem
      cases hmem
    · intro f h hmem
      rcases List.mem_cons.mp hmem with hmem | hmem
      · cases hmem
      · rw [Json.number.inj (List.mem_singleton.mp hmem)]
        exact hfloat
    · intro f h hmem
      cases hmem
  have hk : c.KeysDistinct := by
    refine hnodes Argument.HasDistinctKeys trivial (fun es hmem => ?_) trivial
    rcases List.mem_cons.mp hmem with hmem | hmem
    · cases hmem
      decide
    · cases List.mem_singleton.mp hmem
  have hr : c.Renderable := by
    apply hnodes Argument.IsPlain
    · exact ⟨hname, List.cons_ne_nil _ _⟩
    · exact Nat.le_of_ble_eq_true rfl
    · exact ⟨hraw, rfl⟩
  have hd : c.depth ≤ 1 := Nat.le_refl 1
  have hrender : c.render = "$f(\x7b\"a\":1.5\x7d, y)".toList := by decide +kernel
  exact ⟨hf, hk, hr, hd, hrender, (parse_toString_iff ⟨1, .naive⟩ c hf hk).2.1 hr hd⟩

end SigilCall
