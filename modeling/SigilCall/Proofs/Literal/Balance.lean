import SigilCall.Literal.Balance

namespace SigilCall.Literal

variable {k : Kind} {mode : Quoting} {r : Region} {n : Nat} {s t u tail : List Char} {x : Char}

namespace Span

variable {σ : SpanState}

theorem scanFrom_of_closing (h : (σ.step k mode x).depth = 0) (s : List Char) :
    scanFrom k mode σ (x :: s) = ⟨[x], s, true⟩ := by
  rw [scanFrom]
  simp only [if_pos h]

theorem scanFrom_of_open (h : (σ.step k mode x).depth ≠ 0) (s : List Char) :
    scanFrom k mode σ (x :: s) = ⟨x :: (scanFrom k mode (σ.step k mode x) s).text,
      (scanFrom k mode (σ.step k mode x) s).rest, (scanFrom k mode (σ.step k mode x) s).closed⟩ := by
  rw [scanFrom]
  simp only [if_neg h]

/-- A scan reports its literal closed if it stops in a state without open brackets. -/
theorem closed_iff_depth : (scanFrom k mode σ s).closed = true ↔
    ((scanFrom k mode σ s).text.foldl (SpanState.step k mode) σ).depth = 0 := by
  induction s generalizing σ with
  | nil => exact beq_iff_eq
  | cons x s ih =>
      by_cases hd : (σ.step k mode x).depth = 0
      · rw [scanFrom_of_closing hd, List.foldl_cons, List.foldl_nil, iff_true_left rfl]
        exact hd
      · rw [scanFrom_of_open hd, List.foldl_cons]
        exact ih

theorem closed_of_rest_ne_nil (h : (scanFrom k mode σ s).rest ≠ []) :
    (scanFrom k mode σ s).closed = true := by
  induction s generalizing σ with
  | nil => exact absurd rfl h
  | cons x s ih =>
      by_cases hd : (σ.step k mode x).depth = 0
      · rw [scanFrom_of_closing hd]
      · rw [scanFrom_of_open hd] at h ⊢
        exact ih h

theorem rest_eq_nil_of_closed (h : (scan k mode s).closed = false) : (scan k mode s).rest = [] := by
  apply Classical.byContradiction
  intro hne
  have hclosed : (scan k mode s).closed = true := closed_of_rest_ne_nil hne
  rw [h] at hclosed
  cases hclosed

end Span

def outsideFrom (mode : Quoting) : Region → List Char → List Char
  | _, [] => []
  | r, x :: s =>
      if r = .plain then x :: outsideFrom mode (r.step mode x) s else outsideFrom mode (r.step mode x) s

@[simp] theorem outsideFrom_plain :
    outsideFrom mode .plain (x :: s) = x :: outsideFrom mode (Region.plain.step mode x) s := by
  rw [outsideFrom, if_pos rfl]

theorem outsideFrom_of_ne (h : r ≠ .plain) :
    outsideFrom mode r (x :: s) = outsideFrom mode (r.step mode x) s := by
  rw [outsideFrom, if_neg h]

def markRegion (n : Nat) : Region := if n % 2 = 0 then .plain else .quoted

@[simp] theorem markRegion_step (n : Nat) (x : Char) :
    (markRegion n).step .naive x = markRegion (n + if x = '"' then 1 else 0) := by
  rcases Nat.mod_two_eq_zero_or_one n with h | h <;> by_cases hx : x = '"' <;>
    simp [markRegion, Region.step, h, hx, Nat.add_mod]

theorem atEvenMarks_eq_from (u s : List Char) :
    (((s.zipIdx u.length).filter fun x => ((u ++ s).take x.2).count '"' % 2 == 0).map Prod.fst) =
      outsideFrom .naive (markRegion (u.count '"')) s := by
  induction s generalizing u with
  | nil => rfl
  | cons x s ih =>
      have hu : (u ++ [x]) ++ s = u ++ x :: s := by rw [List.append_assoc, List.singleton_append]
      have hlen : (u ++ [x]).length = u.length + 1 := by simp
      have hcount : (u ++ [x]).count '"' = u.count '"' + if x = '"' then 1 else 0 := by
        rw [List.count_append, List.count_singleton]
        simp
      have ih := ih (u ++ [x])
      rw [hu, hlen, hcount, ← markRegion_step] at ih
      rw [List.zipIdx_cons, List.filter_cons, outsideFrom, ← ih]
      have htake : (u ++ x :: s).take u.length = u := List.take_left
      simp only [htake]
      by_cases h : u.count '"' % 2 = 0
      · simp [markRegion, h]
      · simp [markRegion, h]

theorem atEvenMarks_eq (s : List Char) : atEvenMarks s = outsideFrom .naive .plain s :=
  atEvenMarks_eq_from [] s

theorem outsideFrom_afterQuoted (s : List Char) :
    outsideFrom .escaped .quoted s = outsideFrom .escaped .plain (afterQuoted s) := by
  fun_induction afterQuoted s with
  | case1 => rfl
  | case2 s =>
      rw [outsideFrom_of_ne (by decide)]
      rfl
  | case3 x s ih =>
      rw [outsideFrom_of_ne (by decide)]
      exact ih
  | case4 x s hq hb ih =>
      rw [outsideFrom_of_ne (by decide), ← ih]
      by_cases hx : x = '\\'
      · subst hx
        cases s with
        | nil => rfl
        | cons y s => exact absurd rfl (hb y s rfl)
      · have hq : x ≠ '"' := hq
        simp [hq, hx]

theorem count_outsideRegions (hx : x ≠ '"') (s : List Char) :
    (outsideRegions s).count x = (outsideFrom .escaped .plain s).count x := by
  fun_induction outsideRegions s with
  | case1 => rfl
  | case2 s _ ih =>
      rw [ih, ← outsideFrom_afterQuoted, outsideFrom_plain, List.count_cons_of_ne (Ne.symm hx)]
      rfl
  | case3 y s hy ih =>
      rw [outsideFrom_plain, Region.plain_step hy, List.count_cons, List.count_cons, ih]

def Kind.excess (k : Kind) (s : List Char) : Int := s.count k.opening - s.count k.closing

def Kind.delta (k : Kind) (x : Char) : Int :=
  if x = k.opening then 1 else if x = k.closing then -1 else 0

@[simp] theorem delta_opening : k.delta k.opening = 1 := if_pos rfl

@[simp] theorem excess_cons : k.excess (x :: s) = k.delta x + k.excess s := by
  have hne := k.opening_ne_closing
  simp only [Kind.excess, Kind.delta, List.count_cons, beq_iff_eq]
  by_cases ho : x = k.opening
  · subst ho
    simp only [if_true, if_neg hne]
    omega
  · by_cases hc : x = k.closing
    · subst hc
      simp only [if_true, if_neg ho]
      omega
    · simp only [if_neg ho, if_neg hc]
      omega

theorem balance_eq (k : Kind) (mode : Quoting) (s : List Char) :
    balance k mode s = k.excess (outsideFrom mode .plain s) := by
  cases mode with
  | naive => rw [balance, outside, atEvenMarks_eq, Kind.excess]
  | escaped =>
      rw [balance, outside, Kind.excess, count_outsideRegions k.opening_ne_mark,
        count_outsideRegions k.closing_ne_mark]

theorem kind_step (hn : 1 ≤ n) : (k.step n x : Int) = n + k.delta x := by
  simp only [Kind.step, Kind.delta]
  split
  · omega
  · split <;> omega

/-- The depth of a scan follows the brackets outside quotes. -/
theorem step_depth (hn : 1 ≤ n) :
    ((SpanState.step k mode ⟨r, n⟩ x).depth : Int) + k.excess (outsideFrom mode (r.step mode x) s) =
      n + k.excess (outsideFrom mode r (x :: s)) := by
  by_cases hr : r = .plain
  · subst hr
    rw [outsideFrom_plain, excess_cons, SpanState.step_plain]
    simp only [kind_step hn]
    omega
  · rw [outsideFrom_of_ne hr, SpanState.step_of_ne hr]

@[simp] theorem excess_nil : k.excess (outsideFrom mode r []) = 0 := by
  simp [outsideFrom, Kind.excess]

theorem step_depth_nil (hn : 1 ≤ n) :
    ((SpanState.step k mode ⟨r, n⟩ x).depth : Int) = n + k.excess (outsideFrom mode r [x]) := by
  rw [← step_depth hn, excess_nil, Int.add_zero]

def Closes (k : Kind) (mode : Quoting) (r : Region) (n : Nat) (t : List Char) : Prop :=
  n + k.excess (outsideFrom mode r t) = 0 ∧
    ∀ p, p <+: t → p ≠ t → n + k.excess (outsideFrom mode r p) ≠ 0

theorem not_closes_nil (hn : 1 ≤ n) : ¬ Closes k mode r n [] := by
  intro h
  have := h.1
  rw [excess_nil] at this
  omega

/-- What the first character leaves to be closed. -/
theorem closes_cons_iff (hn : 1 ≤ n) :
    Closes k mode r n (x :: t) ↔
      if (SpanState.step k mode ⟨r, n⟩ x).depth = 0 then t = []
      else Closes k mode (r.step mode x) (SpanState.step k mode ⟨r, n⟩ x).depth t := by
  have hone : ((SpanState.step k mode ⟨r, n⟩ x).depth : Int) = n + k.excess (outsideFrom mode r [x]) :=
    step_depth_nil hn
  split
  · next hd =>
      constructor
      · intro h
        by_cases ht : t = []
        · exact ht
        · refine absurd ?_ (h.2 [x] ⟨t, rfl⟩ (by simpa using Ne.symm ht))
          omega
      · rintro rfl
        refine ⟨by omega, fun p hp hne => ?_⟩
        rcases List.prefix_cons_iff.mp hp with rfl | ⟨q, rfl, hq⟩
        · rw [excess_nil]
          omega
        · rw [List.prefix_nil.mp hq] at hne
          exact absurd rfl hne
  · next hd =>
      constructor
      · intro h
        refine ⟨by rw [step_depth hn]; exact h.1, fun p hp hne => ?_⟩
        rw [step_depth hn]
        exact h.2 (x :: p) (List.cons_prefix_cons.mpr ⟨rfl, hp⟩) (by simpa using hne)
      · intro h
        refine ⟨by rw [← step_depth hn]; exact h.1, fun p hp hne => ?_⟩
        rcases List.prefix_cons_iff.mp hp with rfl | ⟨q, rfl, hq⟩
        · rw [excess_nil]
          omega
        · rw [← step_depth hn]
          exact h.2 q hq (by simpa using hne)

theorem scanFrom_cons_eq_iff {σ : SpanState} :
    Span.scanFrom k mode σ (x :: s) = ⟨t, tail, true⟩ ↔
      ∃ u, t = x :: u ∧
        if (σ.step k mode x).depth = 0 then u = [] ∧ s = tail
        else Span.scanFrom k mode (σ.step k mode x) s = ⟨u, tail, true⟩ := by
  rw [Span.scanFrom]
  by_cases hd : (σ.step k mode x).depth = 0
  · simp only [if_pos hd]
    constructor
    · rintro ⟨⟩
      exact ⟨[], rfl, rfl, rfl⟩
    · rintro ⟨_, rfl, rfl, rfl⟩
      rfl
  · simp only [if_neg hd]
    constructor
    · intro h
      simp only [Span.mk.injEq] at h
      obtain ⟨rfl, hrest, hclosed⟩ := h
      exact ⟨_, rfl, by rw [← hrest, ← hclosed]⟩
    · rintro ⟨u, rfl, h⟩
      rw [h]

/-- A scan finds the end of the shortest text that closes its brackets. -/
theorem scanFrom_eq_iff (hn : 1 ≤ n) :
    Span.scanFrom k mode ⟨r, n⟩ s = ⟨t, tail, true⟩ ↔ s = t ++ tail ∧ Closes k mode r n t := by
  induction s generalizing r n t with
  | nil =>
      have hopen : (n == 0) = false := beq_eq_false_iff_ne.mpr (Nat.one_le_iff_ne_zero.mp hn)
      rw [Span.scanFrom, hopen]
      constructor
      · intro h
        cases h
      · rintro ⟨hs, h⟩
        obtain ⟨rfl, -⟩ := List.append_eq_nil_iff.mp hs.symm
        exact absurd h (not_closes_nil hn)
  | cons x s ih =>
      have hcons : (∃ u, t = x :: u ∧ s = u ++ tail ∧ Closes k mode r n (x :: u)) ↔
          x :: s = t ++ tail ∧ Closes k mode r n t := by
        constructor
        · rintro ⟨u, rfl, rfl, h⟩
          exact ⟨rfl, h⟩
        · rintro ⟨hs, h⟩
          cases t with
          | nil => exact absurd h (not_closes_nil hn)
          | cons y t =>
              obtain ⟨rfl, rfl⟩ := List.cons.inj hs
              exact ⟨t, rfl, rfl, h⟩
      rw [scanFrom_cons_eq_iff, ← hcons]
      apply exists_congr
      intro u
      apply and_congr_right
      intro _
      rw [closes_cons_iff hn]
      by_cases hd : (SpanState.step k mode ⟨r, n⟩ x).depth = 0
      · rw [if_pos hd, if_pos hd]
        constructor
        · rintro ⟨rfl, rfl⟩
          exact ⟨rfl, rfl⟩
        · rintro ⟨rfl, rfl⟩
          exact ⟨rfl, rfl⟩
      · rw [if_neg hd, if_neg hd]
        exact ih (Nat.one_le_iff_ne_zero.mpr hd)

theorem scan_cons_opening : Span.scan k mode (k.opening :: s) =
    ⟨k.opening :: (Span.scanFrom k mode ⟨.plain, 1⟩ s).text,
      (Span.scanFrom k mode ⟨.plain, 1⟩ s).rest, (Span.scanFrom k mode ⟨.plain, 1⟩ s).closed⟩ := by
  cases k <;> rfl

theorem balance_cons_opening :
    balance k mode (k.opening :: s) = 1 + k.excess (outsideFrom mode .plain s) := by
  simp [balance_eq]

theorem isLiteral_iff_closes : IsLiteral k mode (k.opening :: t) ↔ Closes k mode .plain 1 t := by
  refine ⟨fun h => ⟨?_, fun p hp hne => ?_⟩, fun h => ⟨rfl, ?_, fun p hp hne hne' => ?_⟩⟩
  · have := h.2.1
    rwa [balance_cons_opening] at this
  · have := h.2.2 (k.opening :: p) (List.cons_prefix_cons.mpr ⟨rfl, hp⟩) (by simp) (by simpa using hne)
    rwa [balance_cons_opening] at this
  · rw [balance_cons_opening]
    exact h.1
  · rcases List.prefix_cons_iff.mp hp with rfl | ⟨q, rfl, hq⟩
    · exact absurd rfl hne
    · rw [balance_cons_opening]
      exact h.2 q hq (by simpa using hne')

/-- A scan that closes has found a literal, and one that starts with a literal closes at its end. -/
theorem scan_eq_iff (hs : s.head? = some k.opening) :
    Span.scan k mode s = ⟨t, tail, true⟩ ↔ s = t ++ tail ∧ IsLiteral k mode t := by
  obtain ⟨u, rfl⟩ := List.head?_eq_some_iff.mp hs
  rw [scan_cons_opening, Span.mk.injEq]
  constructor
  · rintro ⟨rfl, hrest, hclosed⟩
    have hspan : Span.scanFrom k mode ⟨.plain, 1⟩ u =
        ⟨(Span.scanFrom k mode ⟨.plain, 1⟩ u).text, tail, true⟩ := by
      rw [← hrest, ← hclosed]
    obtain ⟨hu, h⟩ := (scanFrom_eq_iff (Nat.le_refl 1)).mp hspan
    exact ⟨congrArg (k.opening :: ·) hu, isLiteral_iff_closes.mpr h⟩
  · rintro ⟨hu, h⟩
    obtain ⟨v, rfl⟩ := List.head?_eq_some_iff.mp h.1
    obtain ⟨-, hu⟩ := List.cons.inj hu
    rw [(scanFrom_eq_iff (Nat.le_refl 1)).mpr ⟨hu, isLiteral_iff_closes.mp h⟩]
    exact ⟨rfl, rfl, rfl⟩

end SigilCall.Literal
