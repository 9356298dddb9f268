import SigilCall.Cursor.Script
import SigilCall.Proofs.Rules

namespace SigilCall.Cursor

open Text Literal

/-- What a step takes from a text: `t` is taken, `r` is what is left, and `a` is the answer. -/
def Step.Takes (t r : List Char) (a : Answer) : Step → Prop
  | .next => a = .char? t.head? ∧ (t = [] ∧ r = [] ∨ ∃ x, t = [x])
  | .accept x => t = [x] ∧ a = .flag true ∨ t = [] ∧ r.head? ≠ some x ∧ a = .flag false
  | .skipWhile p => (∀ x ∈ t, p x = true) ∧ Halts p r
  | .skip n => t.length = n ∨ t.length < n ∧ r = []
  | .skipSpace => (∀ x ∈ t, isSpace x = true) ∧ Halts isSpace r
  | .scanSpan k mode => (Span.scan k mode (t ++ r)).text = t ∧ a = .text t
  | .scanRaw => (∀ x ∈ t, isRawChar x = true) ∧ Halts isRawChar r ∧ a = .text (trim t)
  | .position | .isAtEnd | .peek | .slice _ _ | .save | .restore => t = []

def skipWhileFrom {σ : Type} (p : σ → Char → Bool × σ) (q : σ) (n : Nat) : List Char → Cursor
  | [] => ⟨n, []⟩
  | x :: s => if (p q x).1 then skipWhileFrom p (p q x).2 (n + x.utf8Size) s else ⟨n, x :: s⟩

/-- The states of a cursor over a text, the latest first. A step leads on from the latest one. A
clone of the cursor of an earlier one can be put back at any time, as often as one likes. -/
inductive History (text : List Char) : List State → Prop
  | start : History text [⟨.start text, []⟩]
  | step {s : State} {past : List State} (i : Step) : History text (s :: past) →
      History text ((s.step text i).2 :: s :: past)
  | back {s s' : State} {past : List State} : History text (s :: past) → s' ∈ past →
      History text (s.move s'.current :: s :: past)

def visited (text : List Char) (is : List Step) : List State :=
  ((script text is).map Prod.snd).reverse ++ [⟨.start text, []⟩]

def State.IsIn (text : List Char) (s : State) : Prop :=
  ∀ c ∈ s.current :: s.saved, .start text ≤ c

variable {text : List Char} {s s' : State} {past : List State} {i : Step} {c d : Cursor}

/-- A predicate that keeps a state of its own stops after some number of characters. -/
theorem exists_skipWhileFrom_eq {σ : Type} (p : σ → Char → Bool × σ) (q : σ) (n : Nat)
    (s : List Char) : ∃ m, skipWhileFrom p q n s = (⟨n, s⟩ : Cursor).skip m := by
  induction s generalizing q n with
  | nil => exact ⟨0, rfl⟩
  | cons x s ih =>
      by_cases hx : (p q x).1 = true
      · obtain ⟨m, hm⟩ := ih (p q x).2 (n + x.utf8Size)
        refine ⟨m + 1, ?_⟩
        rw [skipWhileFrom, if_pos hx, hm, skip, skip, List.take_succ_cons, List.drop_succ_cons,
          byteLength_cons, Nat.add_assoc]
      · exact ⟨0, by rw [skipWhileFrom, if_neg hx]; rfl⟩

theorem skipWhile_takes (p : Char → Bool) (c : Cursor) :
    (∀ x ∈ c.rest.takeWhile p, p x = true) ∧ Halts p (c.skipWhile p).rest :=
  ⟨List.all_eq_true.mp List.all_takeWhile, halts_skipWhile p c⟩

theorem passes_skip (n : Nat) (c : Cursor) : c.Passes (c.rest.take n) (c.skip n) :=
  ⟨(List.take_append_drop n c.rest).symm, rfl⟩

theorem skip_takes (n : Nat) (c : Cursor) :
    (c.rest.take n).length = n ∨ (c.rest.take n).length < n ∧ (c.skip n).rest = [] := by
  rcases Nat.lt_or_ge c.rest.length n with h | h
  · refine .inr ⟨?_, List.drop_eq_nil_of_le (Nat.le_of_lt h)⟩
    rwa [List.take_of_length_le (Nat.le_of_lt h)]
  · exact .inl (List.length_take_of_le h)

/-- A step other than a restore goes over what it takes. -/
theorem exists_takes_step (text : List Char) (s : State) (hi : i ≠ .restore) :
    ∃ t, s.current.Passes t (s.step text i).2.current ∧
      i.Takes t (s.step text i).2.current.rest (s.step text i).1 := by
  cases i with
  | position | isAtEnd | peek | slice | save => exact ⟨[], passes_nil _, rfl⟩
  | next =>
      cases hn : s.current.next? with
      | none =>
          have hr := next?_eq_none_iff.mp hn
          refine ⟨[], ?_⟩
          simp only [State.step, hn]
          exact ⟨passes_nil _, rfl, .inl ⟨rfl, hr⟩⟩
      | some r =>
          obtain ⟨x, d⟩ := r
          refine ⟨[x], ?_⟩
          simp only [State.step, hn]
          exact ⟨next?_eq_some_iff.mp hn, rfl, .inr ⟨x, rfl⟩⟩
  | accept x =>
      cases hn : s.current.accept? x with
      | none =>
          refine ⟨[], ?_⟩
          simp only [State.step, hn]
          exact ⟨passes_nil _, .inr ⟨rfl, accept?_eq_none_iff.mp hn, rfl⟩⟩
      | some d =>
          refine ⟨[x], ?_⟩
          simp only [State.step, hn]
          exact ⟨accept?_eq_some_iff.mp hn, .inl ⟨rfl, rfl⟩⟩
  | skipWhile p => exact ⟨_, passes_skipWhile p _, skipWhile_takes p _⟩
  | skip n => exact ⟨_, passes_skip n _, skip_takes n _⟩
  | skipSpace => exact ⟨_, passes_skipWhile isSpace _, skipWhile_takes isSpace _⟩
  | scanSpan k mode =>
      refine ⟨_, passes_skipSpan k mode _, ?_, rfl⟩
      change (Span.scan k mode (_ ++ (Span.scan k mode s.current.rest).rest)).text = _
      rw [Span.scan_append]
  | scanRaw =>
      obtain ⟨hall, hhalts⟩ := skipWhile_takes isRawChar s.current
      exact ⟨_, passes_skipWhile isRawChar _, hall, hhalts, rfl⟩
  | restore => exact absurd rfl hi

theorem saved_step (text : List Char) (s : State) (hi : i ≠ .restore) :
    (s.step text i).2.saved ⊆ s.current :: s.saved := by
  cases i with
  | next => cases hn : s.current.next? <;> simp [State.step, State.move, hn]
  | accept x => cases hn : s.current.accept? x <;> simp [State.step, State.move, hn]
  | restore => exact absurd rfl hi
  | _ => simp [State.step, State.move]

namespace State.IsIn

theorem restore (h : s.IsIn text) : (s.step text .restore).2.IsIn text := by
  obtain ⟨c, _ | ⟨d, saved⟩⟩ := s
  · exact h
  · exact fun e he => h e (List.mem_cons_of_mem c he)

theorem step (h : s.IsIn text) (i : Step) : (s.step text i).2.IsIn text := by
  by_cases hi : i = .restore
  · rw [hi]
    exact h.restore
  · obtain ⟨t, hpasses, -⟩ := exists_takes_step text s hi
    intro c hc
    rcases List.mem_cons.mp hc with rfl | hc
    · exact Cursor.le_trans (h _ List.mem_cons_self) hpasses.le
    · exact h c (saved_step text s hi hc)

end State.IsIn

namespace History

theorem isIn {ss : List State} (h : History text ss) : ∀ s ∈ ss, s.IsIn text := by
  induction h with
  | start => simp [State.IsIn, Cursor.le_refl]
  | step i _ ih => exact List.forall_mem_cons.mpr ⟨(ih _ List.mem_cons_self).step i, ih⟩
  | @back s s' past _ hs' ih =>
      refine List.forall_mem_cons.mpr ⟨List.forall_mem_cons.mpr ⟨?_, ?_⟩, ih⟩
      · exact ih s' (List.mem_cons_of_mem s hs') _ List.mem_cons_self
      · exact fun c hc => ih s List.mem_cons_self c (List.mem_cons_of_mem _ hc)

theorem start_le {ss : List State} (h : History text ss) (hs : s ∈ ss) : .start text ≤ s.current :=
  h.isIn s hs _ List.mem_cons_self

/-- A list of steps prolongs a history, and one more step goes on from where it ends. -/
theorem run (h : History text (s :: past)) (is : List Step) :
    ∃ s' past', ((State.run text s is).map Prod.snd).reverse ++ s :: past = s' :: past' ∧
      History text (s' :: past') ∧
      ∀ i, State.run text s (is ++ [i]) = State.run text s is ++ [s'.step text i] := by
  induction is generalizing s past with
  | nil => exact ⟨s, past, rfl, h, fun i => rfl⟩
  | cons j is ih =>
      obtain ⟨s', past', hpast, hs', hnext⟩ := ih (h.step j)
      refine ⟨s', past', ?_, hs', fun i => ?_⟩
      · rw [State.run, List.map_cons, List.reverse_cons, List.append_assoc]
        exact hpast
      · rw [List.cons_append, State.run, State.run, hnext i]
        rfl

end History

/-- The text between two places of a text, in the order of their offsets. -/
theorem exists_slice (hc : .start text ≤ c) (hd : .start text ≤ d) (h : c.pos ≤ d.pos) :
    ∃ u t w, text = u ++ (t ++ w) ∧ byteLength u = c.pos ∧ byteLength (u ++ t) = d.pos ∧
      ∀ s : State, s.step text (.slice c.pos d.pos) = (.text t, s) := by
  obtain ⟨t, ht⟩ := exists_passes_of_pos_le hc hd h
  obtain ⟨u, hu, hpos⟩ := exists_eq_append hc
  refine ⟨u, t, d.rest, hu.trans (congrArg (u ++ ·) ht.1), hpos.symm, ?_, fun s => ?_⟩
  · simp [ht.2, hpos]
  · rw [State.step, slice?_of_passes hc ht]
    rfl

end SigilCall.Cursor
