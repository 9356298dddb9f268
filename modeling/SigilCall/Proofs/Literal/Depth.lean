import Mathlib.Order.Bounds.Defs
import SigilCall.Proofs.Literal.Mask
import SigilCall.Proofs.Rules

namespace SigilCall.Literal

variable {k : Kind} {mode : Quoting} {n : Nat} {s t : List Char} {m : List Bool} {x : Char}
  {σ : SpanState} {c : Cursor}

def SpanState.after (k : Kind) (mode : Quoting) (s : List Char) (n : Nat) : SpanState :=
  (s.take n).foldl (step k mode) start

namespace Span

def since (t : List Char) (p : Span) : Span := ⟨t ++ p.text, p.rest, p.closed⟩

/-- A scan that does not stop before a place goes on there in the state that it has come to. -/
theorem scanFrom_eq_since (h : n < (scanFrom k mode σ s).text.length) :
    scanFrom k mode σ s =
      (scanFrom k mode ((s.take n).foldl (SpanState.step k mode) σ) (s.drop n)).since (s.take n) := by
  induction s generalizing σ n with
  | nil => exact absurd h (Nat.not_lt_zero n)
  | cons x s ih =>
      cases n with
      | zero => rfl
      | succ n =>
          by_cases hd : (σ.step k mode x).depth = 0
          · rw [scanFrom_of_closing hd] at h
            exact absurd h (by simp)
          · rw [scanFrom_of_open hd] at h ⊢
            rw [ih (Nat.lt_of_succ_lt_succ h)]
            rfl

/-- While a scan goes on there is a bracket open. -/
theorem depth_ne_zero (hn : 0 < n) (h : n < (scanFrom k mode σ s).text.length) :
    ((s.take n).foldl (SpanState.step k mode) σ).depth ≠ 0 := by
  induction s generalizing σ n with
  | nil => exact absurd h (Nat.not_lt_zero n)
  | cons x s ih =>
      obtain ⟨n, rfl⟩ := Nat.exists_eq_add_one_of_ne_zero (Nat.ne_of_gt hn)
      by_cases hd : (σ.step k mode x).depth = 0
      · rw [scanFrom_of_closing hd] at h
        exact absurd h (by simp)
      · rw [scanFrom_of_open hd] at h
        rcases Nat.eq_zero_or_pos n with rfl | hn
        · exact hd
        · exact ih hn (Nat.lt_of_succ_lt_succ h)

/-- What is added to the depth on the way is what is left open outside quotes. -/
theorem depth_eq (hσ : 1 ≤ σ.depth) (h : n ≤ (scanFrom k mode σ s).text.length) :
    (((s.take n).foldl (SpanState.step k mode) σ).depth : Int) =
      σ.depth + k.excess (outsideFrom mode σ.region (s.take n)) := by
  induction s generalizing σ n with
  | nil => simp
  | cons x s ih =>
      cases n with
      | zero => simp
      | succ n =>
          rw [List.take_succ_cons, List.foldl_cons]
          by_cases hd : (σ.step k mode x).depth = 0
          · rw [scanFrom_of_closing hd] at h
            obtain rfl : n = 0 := Nat.le_zero.mp (Nat.le_of_succ_le_succ h)
            exact step_depth_nil hσ
          · rw [scanFrom_of_open hd] at h
            rw [ih (Nat.one_le_iff_ne_zero.mpr hd) (Nat.le_of_succ_le_succ h)]
            exact step_depth hσ

theorem depth_le (k : Kind) (mode : Quoting) (s : List Char) (σ : SpanState) :
    (s.foldl (SpanState.step k mode) σ).depth ≤ σ.depth + s.length := by
  induction s generalizing σ with
  | nil => exact Nat.le_refl _
  | cons x s ih =>
      have hstep : (σ.step k mode x).depth ≤ σ.depth + 1 := by
        simp only [SpanState.step, Kind.step]
        split
        · split
          · exact Nat.le_refl _
          · split <;> omega
        · exact Nat.le_succ _
      have hrest := ih (σ.step k mode x)
      rw [List.foldl_cons, List.length_cons]
      omega

theorem take_length_text (k : Kind) (mode : Quoting) (s : List Char) :
    s.take (scan k mode s).text.length = (scan k mode s).text :=
  (List.prefix_iff_eq_take.mp ⟨_, scan_append k mode s⟩).symm

end Span

namespace SpanState

theorem depth_after_le (k : Kind) (mode : Quoting) (s : List Char) (n : Nat) :
    (after k mode s n).depth ≤ n := by
  have h := Span.depth_le k mode (s.take n) start
  rw [List.length_take] at h
  exact Nat.le_trans h (by simp only [start]; omega)

/-- The depth of a scan is the balance of the text that it has read. -/
theorem depth_after (hs : s.head? = some k.opening) (h : n ≤ (Span.scan k mode s).text.length) :
    ((after k mode s n).depth : Int) = balance k mode (s.take n) := by
  obtain ⟨u, rfl⟩ := List.head?_eq_some_iff.mp hs
  cases n with
  | zero =>
      rw [List.take_zero, balance_eq, excess_nil]
      rfl
  | succ n =>
      have hfirst : after k mode (k.opening :: u) (n + 1) = (u.take n).foldl (step k mode) ⟨.plain, 1⟩ := by
        cases k <;> rfl
      rw [scan_cons_opening, List.length_cons] at h
      rw [List.take_succ_cons, balance_cons_opening, hfirst,
        Span.depth_eq (Nat.le_refl 1) (Nat.le_of_succ_le_succ h)]
      rfl

theorem depth_after_eq_zero_iff :
    (after k mode s (Span.scan k mode s).text.length).depth = 0 ↔ (Span.scan k mode s).closed = true := by
  rw [after, Span.take_length_text]
  exact Span.closed_iff_depth.symm

end SpanState

/-- How the scan at a cursor goes by the balance that a mask gives. It takes the shortest text that
balances, or all that is left if none does, and all the way its depth is the balance, without a
closing bracket too many. -/
structure FollowsBalance (k : Kind) (mode : Quoting) (c : Cursor) (m : List Bool) : Prop where
  shortest : (Span.scan k mode c.rest).closed = true →
    IsLeast {n | 0 < n ∧ n ≤ c.rest.length ∧ maskedBalance k c.rest m n = 0}
      (Span.scan k mode c.rest).text.length
  whole : (Span.scan k mode c.rest).closed = false → (Span.scan k mode c.rest).text = c.rest ∧
    ∀ n, 0 < n → n ≤ c.rest.length → maskedBalance k c.rest m n ≠ 0
  passes : c.Passes (Span.scan k mode c.rest).text (c.skipSpan k mode)
  resumes : ∀ n < (Span.scan k mode c.rest).text.length, Span.scan k mode c.rest =
    (Span.scanFrom k mode (.after k mode c.rest n) (c.rest.drop n)).since (c.rest.take n)
  depth_eq : ∀ n ≤ (Span.scan k mode c.rest).text.length,
    ((SpanState.after k mode c.rest n).depth : Int) = maskedBalance k c.rest m n
  depth_le : ∀ n, (SpanState.after k mode c.rest n).depth ≤ n
  depth_pos : ∀ n, 0 < n → n ≤ (Span.scan k mode c.rest).text.length →
    1 ≤ (SpanState.after k mode c.rest n).depth ∨
      n = (Span.scan k mode c.rest).text.length ∧ (Span.scan k mode c.rest).closed = true
  closing : ∀ n < (Span.scan k mode c.rest).text.length, c.rest[n]? = some k.closing →
    1 ≤ (SpanState.after k mode c.rest n).depth

theorem depth_pos_after (hn : 0 < n) (h : n ≤ (Span.scan k mode s).text.length) :
    1 ≤ (SpanState.after k mode s n).depth ∨
      n = (Span.scan k mode s).text.length ∧ (Span.scan k mode s).closed = true := by
  rcases Nat.lt_or_eq_of_le h with hlt | rfl
  · exact .inl (Nat.one_le_iff_ne_zero.mpr (Span.depth_ne_zero hn hlt))
  · by_cases hclosed : (Span.scan k mode s).closed = true
    · exact .inr ⟨rfl, hclosed⟩
    · exact .inl (Nat.one_le_iff_ne_zero.mpr (mt SpanState.depth_after_eq_zero_iff.mp hclosed))

theorem length_text_le (k : Kind) (mode : Quoting) (s : List Char) :
    (Span.scan k mode s).text.length ≤ s.length := by
  rw [← Span.take_length_text, List.length_take]
  exact Nat.min_le_right _ _

theorem followsBalance_of_masks (hk : c.peek? = some k.opening) (h : Masks mode c.rest m) :
    FollowsBalance k mode c m := by
  have hpos : 0 < (Span.scan k mode c.rest).text.length := by
    obtain ⟨u, hu⟩ := List.head?_eq_some_iff.mp hk
    rw [hu, scan_cons_opening]
    exact Nat.succ_pos _
  have hdepth : ∀ n ≤ (Span.scan k mode c.rest).text.length,
      ((SpanState.after k mode c.rest n).depth : Int) = maskedBalance k c.rest m n := by
    intro n hn
    rw [SpanState.depth_after hk hn, maskedBalance_eq h]
  refine
    { shortest := fun hclosed => ⟨⟨hpos, length_text_le k mode c.rest, ?_⟩, ?_⟩
      whole := fun hopen => ?_
      passes := c.passes_skipSpan k mode
      resumes := fun n hn => Span.scanFrom_eq_since hn
      depth_eq := hdepth
      depth_le := SpanState.depth_after_le k mode c.rest
      depth_pos := fun n hn hle => depth_pos_after hn hle
      closing := fun n hn hx => ?_ }
  · rw [← hdepth _ (Nat.le_refl _), SpanState.depth_after_eq_zero_iff.mpr hclosed]
    rfl
  · rintro n ⟨hn, -, hbalance⟩
    apply Nat.le_of_not_lt
    intro hlt
    rw [← hdepth n (Nat.le_of_lt hlt)] at hbalance
    exact Span.depth_ne_zero hn hlt (Int.ofNat_eq_zero.mp hbalance)
  · have htext : (Span.scan k mode c.rest).text = c.rest := by
      have happend := Span.scan_append k mode c.rest
      rwa [Span.rest_eq_nil_of_closed hopen, List.append_nil] at happend
    refine ⟨htext, fun n hn hle => ?_⟩
    rw [← htext] at hle
    rw [← hdepth n hle]
    rcases depth_pos_after hn hle with hdepth | ⟨-, hclosed⟩
    · omega
    · rw [hopen] at hclosed
      cases hclosed
  · rcases Nat.eq_zero_or_pos n with rfl | hpos
    · rw [← List.head?_eq_getElem?] at hx
      have hopening : some k.closing = some k.opening := hx.symm.trans hk
      cases k <;> cases hopening
    · rcases depth_pos_after hpos (Nat.le_of_lt hn) with hdepth | ⟨rfl, -⟩
      · exact hdepth
      · exact absurd hn (Nat.lt_irrefl _)

/-- The characters of a text are quoted in one way, and the scan of a literal goes by the brackets
that are not. It reports whether they balance. -/
theorem scan_followsBalance (hk : c.peek? = some k.opening) :
    ∃ m, (∀ m', Masks mode c.rest m' ↔ m' = m) ∧ FollowsBalance k mode c m ∧
      (Read.literal mode k c).events = [.spanScanned k c.pos (c.skipSpan k mode).pos
        (Span.scan k mode c.rest).closed] := by
  refine ⟨maskFrom mode .plain c.rest, fun m' => masks_iff,
    followsBalance_of_masks hk (masks_iff.mpr rfl), ?_⟩
  rw [Read.literal]
  cases Json.decode (Span.scan k mode c.rest).text with
  | error y => rfl
  | ok v => cases v <;> rfl

/-- A bracket behind an escaped mark is quoted. -/
theorem scan_followsBalance_escaped :
    let c : Cursor := ⟨3, ['[', '"', '\\', '"', ']', '"', ']', ')']⟩
    c.peek? = some Kind.array.opening ∧
      ∃ m, Masks .escaped c.rest m ∧
        IsLeast {n | 0 < n ∧ n ≤ 8 ∧ maskedBalance .array c.rest m n = 0} 7 ∧
        (Read.literal .escaped .array c).events = [.spanScanned .array 3 10 true] := by
  intro c
  obtain ⟨m, hm, hfollows, hevents⟩ := @scan_followsBalance .array .escaped c rfl
  exact ⟨rfl, m, (hm m).mpr rfl, hfollows.shortest rfl, hevents⟩

end SigilCall.Literal
