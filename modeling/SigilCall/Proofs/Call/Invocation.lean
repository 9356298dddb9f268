import Mathlib.Logic.Relation
import SigilCall.Proofs.Call.Offsets

namespace SigilCall

open Text Literal Relation

inductive Invocation
  | call (depth : Nat) (c : Cursor)
  | list (depth : Nat) (c : Cursor)
  | argument (depth : Nat) (c : Cursor)

namespace Invocation

def place : Invocation → Cursor
  | call _ c | list _ c | argument _ c => c

def level : Invocation → Nat
  | call depth _ => depth - 1
  | list depth _ | argument depth _ => depth

/-- The bytes that remain. Of readings at the same place that of a list starts the others, and that
of an argument starts that of a call. -/
def measure : Invocation → Nat × Nat
  | call _ c => (byteLength c.rest, 0)
  | argument _ c => (byteLength c.rest, 1)
  | list _ c => (byteLength c.rest, 2)

def Obeys (cfg : Config) : Invocation → Prop
  | call depth c => Run.Obeys (ReadsCall cfg depth c) ((Read.call cfg depth c).map Reading.pair)
  | list depth c => Run.Obeys (ReadsList cfg depth c) ((Read.arguments cfg depth c).map Reading.pair)
  | argument depth c =>
      Run.Obeys (ReadsArgument cfg depth c) ((Read.argument cfg depth c).map Reading.pair)

end Invocation

/-- The readings that a reading starts. The rest of a list is read after a comma only. -/
inductive Invokes (cfg : Config) : Invocation → Invocation → Prop
  | arguments {depth : Nat} {c b e : Cursor} : depth ≤ cfg.maxDepth → Opens c b e →
      Invokes cfg (.call depth c) (.list depth e)
  | first {depth : Nat} {c : Cursor} : Invokes cfg (.list depth c) (.argument depth c.skipSpace)
  | rest {depth : Nat} {c d e : Cursor} {es : List Event} {a : Argument} :
      ReadsArgument cfg depth c.skipSpace es (.ok (a, d)) → d.skipSpace.Passes [','] e →
      Invokes cfg (.list depth c) (.list depth e)
  | nested {depth : Nat} {c : Cursor} : c.peek? = some '$' →
      Invokes cfg (.argument depth c) (.call (depth + 1) c)

variable {cfg : Config} {depth : Nat} {c d b e : Cursor} {i j : Invocation}

theorem Cursor.byteLength_le (h : c ≤ d) : byteLength d.rest ≤ byteLength c.rest := by
  obtain ⟨t, ht, -⟩ := h
  simp [ht]

theorem Cursor.Passes.byteLength_lt {t : List Char} (h : c.Passes t d) (ht : t ≠ []) :
    byteLength d.rest < byteLength c.rest := by
  simpa [h.1] using byteLength_pos ht

theorem Opens.pos_add_two_le (h : Opens c b e) : c.pos + 2 ≤ e.pos := by
  have hsigil : b.pos = c.skipSpace.pos + 1 := h.sigil.2
  have hparenthesis : e.pos = b.skipName.pos + 1 := h.parenthesis.2
  have hspace := pos_le_skipSpace c
  have hname := Cursor.pos_le (le_skipName b)
  omega

namespace Invokes

theorem le (h : Invokes cfg i j) : i.place ≤ j.place := by
  cases h with
  | arguments _ ho => exact ho.le
  | first => exact Cursor.le_skipSpace _
  | rest ha he => exact le_of_comma ha he
  | nested _ => exact Cursor.le_refl _

/-- A reading that another one starts has less text left, or the same and a lower rank. -/
theorem measure_lt (h : Invokes cfg i j) : Prod.Lex (· < ·) (· < ·) j.measure i.measure := by
  cases h with
  | @arguments depth c b e _ ho =>
      have hlt : byteLength e.rest < byteLength c.rest :=
        Nat.lt_of_lt_of_le (ho.parenthesis.byteLength_lt (List.cons_ne_nil _ _))
          (Cursor.byteLength_le (Cursor.le_trans c.le_skipSpace
            (Cursor.le_trans ho.sigil.le (le_skipName b))))
      exact .left _ _ hlt
  | @first depth c =>
      rcases Nat.lt_or_eq_of_le (Cursor.byteLength_le c.le_skipSpace) with hlt | heq
      · exact .left _ _ hlt
      · exact Prod.lex_def.mpr (.inr ⟨heq, Nat.lt_succ_self 1⟩)
  | @rest depth c d e _ _ ha he =>
      have hle : c ≤ d.skipSpace := Cursor.le_trans c.le_skipSpace
        (Cursor.le_trans (le_of_readsArgument ha) d.le_skipSpace)
      exact .left _ _ (Nat.lt_of_lt_of_le (he.byteLength_lt (List.cons_ne_nil _ _))
        (Cursor.byteLength_le hle))
  | nested _ => exact .right _ Nat.zero_lt_one

end Invokes

theorem wellFounded_invokes (cfg : Config) : WellFounded fun j i => Invokes cfg i j :=
  Subrelation.wf Invokes.measure_lt
    (InvImage.wf Invocation.measure (Prod.lex Nat.lt_wfRel Nat.lt_wfRel).wf)

/-- A reading waits for those only that it starts. -/
theorem obeys_of_invoked (h : ∀ j, Invokes cfg i j → j.Obeys cfg) : i.Obeys cfg := by
  cases i with
  | call depth c =>
      by_cases hd : depth ≤ cfg.maxDepth
      · exact obeys_call hd fun b e ho => h _ (.arguments hd ho)
      · have hd : cfg.maxDepth < depth := Nat.lt_of_not_le hd
        change Run.Obeys _ _
        rw [Read.call_tooDeep hd]
        exact .tooDeep hd
  | list depth c =>
      have ha : Run.Obeys (ReadsArgument cfg depth c.skipSpace) _ := h _ .first
      refine obeys_arguments ha fun a d e hr he => ?_
      rw [Run.Obeys, hr] at ha
      exact h _ (.rest ha he)
  | argument depth c =>
      by_cases hs : c.peek? = some '$'
      · exact obeys_argument_call hs (h _ (.nested hs))
      by_cases hk : ∃ k : Kind, c.peek? = some k.opening
      · obtain ⟨k, hk⟩ := hk
        exact obeys_argument_literal hk
      · apply obeys_argument_raw
        intro x hx
        refine ⟨fun hx' => hs (hx' ▸ hx), Option.eq_none_iff_forall_ne_some.mpr fun k hx' => ?_⟩
        exact hk ⟨k, hx.trans (congrArg some (Kind.ofOpening?_eq_some_iff.mp hx'))⟩

/-- So every reading comes to an end, by induction on what remains. -/
theorem obeys (cfg : Config) (i : Invocation) : i.Obeys cfg :=
  (wellFounded_invokes cfg).induction i fun _ h => obeys_of_invoked h

theorem le_of_reflTransGen (h : ReflTransGen (Invokes cfg) i j) : i.place ≤ j.place := by
  induction h with
  | refl => exact Cursor.le_refl _
  | tail _ hstep ih => exact Cursor.le_trans ih hstep.le

/-- A call in another one starts after it. -/
theorem pos_lt_of_transGen {depth' : Nat} {c' : Cursor}
    (h : TransGen (Invokes cfg) (.call depth c) (.call depth' c')) : c.pos < c'.pos := by
  obtain ⟨i, hfirst, hrest⟩ := TransGen.head'_iff.mp h
  cases hfirst with
  | @arguments _ _ b e _ ho =>
      have hopen := ho.pos_add_two_le
      have hle : e.pos ≤ c'.pos := Cursor.pos_le (le_of_reflTransGen hrest)
      omega

structure Invocation.IsPaid (i : Invocation) : Prop where
  level : 2 * i.level ≤ i.place.pos
  call : ∀ depth c, i = .call depth c → 1 ≤ depth

theorem Invokes.isPaid (h : Invokes cfg i j) (hi : i.IsPaid) : j.IsPaid := by
  cases h with
  | @arguments depth c b e _ ho =>
      have hopen := ho.pos_add_two_le
      have hlevel : 2 * (depth - 1) ≤ c.pos := hi.level
      refine ⟨?_, by rintro _ _ ⟨⟩⟩
      change 2 * depth ≤ e.pos
      omega
  | first => exact ⟨Nat.le_trans hi.level (pos_le_skipSpace _), by rintro _ _ ⟨⟩⟩
  | rest ha he =>
      exact ⟨Nat.le_trans hi.level (Cursor.pos_le (le_of_comma ha he)), by rintro _ _ ⟨⟩⟩
  | nested _ =>
      refine ⟨hi.level, ?_⟩
      rintro _ _ ⟨⟩
      exact Nat.succ_pos _

theorem isPaid_of_reflTransGen (h : ReflTransGen (Invokes cfg) i j) (hi : i.IsPaid) : j.IsPaid := by
  induction h with
  | refl => exact hi
  | tail _ hstep ih => exact hstep.isPaid ih

def Config.Enters (cfg : Config) (text : List Char) (i : Invocation) : Prop :=
  ReflTransGen (Invokes cfg) (.call 1 (.start text)) i

theorem Config.Enters.isPaid {text : List Char} (h : cfg.Enters text i) : i.IsPaid := by
  refine isPaid_of_reflTransGen h ⟨Nat.zero_le _, ?_⟩
  rintro _ _ ⟨⟩
  exact Nat.le_refl 1

theorem Config.Enters.le {text : List Char} (h : cfg.Enters text i) : .start text ≤ i.place :=
  le_of_reflTransGen h

end SigilCall
