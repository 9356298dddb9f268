import SigilCall.Proofs.Literal.Balance

namespace SigilCall.Literal

variable {k : Kind} {mode : Quoting} {r : Region} {n : Nat} {s b : List Char} {m : List Bool} {x : Char}

inductive IsInert : List Char → Prop
  | nil : IsInert []
  | plain {x : Char} {s : List Char} : x ≠ '"' → x ≠ '\\' → IsInert s → IsInert (x :: s)
  | escape {x : Char} {s : List Char} : IsInert s → IsInert ('\\' :: x :: s)

/-- The quoted characters of a text in escaped mode. Regions are taken from left to right, with
their marks, and one that no mark ends goes to the end of the text. -/
inductive MasksRegions : List Char → List Bool → Prop
  | nil : MasksRegions [] []
  | plain {x : Char} {s : List Char} {m : List Bool} : x ≠ '"' → MasksRegions s m →
      MasksRegions (x :: s) (false :: m)
  | region {b s : List Char} {m : List Bool} : IsInert b → MasksRegions s m →
      MasksRegions ('"' :: (b ++ '"' :: s)) (List.replicate (b.length + 2) true ++ m)
  | unclosed {b : List Char} : (∀ u s, b = u ++ '"' :: s → ¬ IsInert u) →
      MasksRegions ('"' :: b) (List.replicate (b.length + 1) true)

/-- A mask tells the quoted characters of a text, with no regard to brackets. In naive mode those
after an odd number of marks are quoted. -/
def Masks : Quoting → List Char → List Bool → Prop
  | .naive, s, m => m = (List.range s.length).map fun i => (s.take i).count '"' % 2 == 1
  | .escaped, s, m => MasksRegions s m

def maskedBalance (k : Kind) (s : List Char) (m : List Bool) (n : Nat) : Int :=
  ((s.zip m).take n).count (k.opening, false) - ((s.zip m).take n).count (k.closing, false)

def maskFrom (mode : Quoting) : Region → List Char → List Bool
  | _, [] => []
  | r, x :: s => (r != .plain || mode == .escaped && x == '"') :: maskFrom mode (r.step mode x) s

theorem maskFrom_naive (n : Nat) (s : List Char) :
    maskFrom .naive (markRegion n) s =
      (List.range s.length).map fun i => (n + (s.take i).count '"') % 2 == 1 := by
  induction s generalizing n with
  | nil => rfl
  | cons x s ih =>
      have hflag : (markRegion n != .plain) = (n % 2 == 1) := by
        rcases Nat.mod_two_eq_zero_or_one n with h | h <;> simp [markRegion, h]
      rw [maskFrom, markRegion_step, ih, List.length_cons, List.range_succ_eq_map, List.map_cons,
        List.map_map, hflag]
      congr 1
      · simp
      · apply List.map_congr_left
        intro i _
        simp only [Function.comp_apply, List.take_succ_cons, List.count_cons, beq_iff_eq]
        rw [Nat.add_assoc, Nat.add_comm (List.count _ _)]

theorem maskFrom_inert (h : IsInert b) (s : List Char) :
    maskFrom .escaped .quoted (b ++ '"' :: s) =
      List.replicate (b.length + 1) true ++ maskFrom .escaped .plain s := by
  induction h with
  | nil => rfl
  | @plain x b hq hb _ ih =>
      rw [List.cons_append, maskFrom, Region.quoted_step hq hb, ih]
      rfl
  | escape _ ih =>
      rw [List.cons_append, List.cons_append, maskFrom, maskFrom]
      exact congrArg (true :: true :: ·) ih

/-- A mark ends what is quoted, or all of it is. -/
theorem exists_inert_or_maskFrom (b : List Char) :
    (∃ u s, b = u ++ '"' :: s ∧ IsInert u) ∨
      maskFrom .escaped .quoted b = List.replicate b.length true := by
  fun_induction afterQuoted b with
  | case1 => exact .inr rfl
  | case2 s => exact .inl ⟨[], s, rfl, .nil⟩
  | case3 x s ih =>
      rcases ih with ⟨u, t, rfl, hu⟩ | ih
      · exact .inl ⟨'\\' :: x :: u, t, rfl, .escape hu⟩
      · exact .inr (congrArg (true :: true :: ·) ih)
  | case4 x s hq hb ih =>
      by_cases hx : x = '\\'
      · subst hx
        cases s with
        | nil => exact .inr rfl
        | cons y s => exact absurd rfl (hb y s rfl)
      · have hq : x ≠ '"' := hq
        rcases ih with ⟨u, t, rfl, hu⟩ | ih
        · exact .inl ⟨x :: u, t, rfl, .plain hq hx hu⟩
        · right
          rw [maskFrom, Region.quoted_step hq hx, ih]
          rfl

theorem maskFrom_of_masksRegions (h : MasksRegions s m) : m = maskFrom .escaped .plain s := by
  induction h with
  | nil => rfl
  | @plain x s m hq _ ih =>
      rw [maskFrom, Region.plain_step hq, ← ih]
      simp [hq]
  | region hb _ ih =>
      rw [ih]
      exact congrArg (true :: ·) (maskFrom_inert hb _).symm
  | @unclosed b hb =>
      rcases exists_inert_or_maskFrom b with ⟨u, t, hu, hinert⟩ | h
      · exact absurd hinert (hb u t hu)
      · exact congrArg (true :: ·) h.symm

theorem masksRegions_maskFrom (s : List Char) : MasksRegions s (maskFrom .escaped .plain s) := by
  match s with
  | [] => exact .nil
  | x :: s =>
      by_cases hq : x = '"'
      · subst hq
        by_cases hclosed : ∃ u t, s = u ++ '"' :: t ∧ IsInert u
        · obtain ⟨u, t, hs, hu⟩ := hclosed
          have hlt : t.length < s.length := by
            rw [hs, List.length_append, List.length_cons]
            omega
          have h := MasksRegions.region hu (masksRegions_maskFrom t)
          rwa [List.replicate_succ, List.cons_append, ← maskFrom_inert hu, ← hs] at h
        · have hall := (exists_inert_or_maskFrom s).resolve_left hclosed
          have h := MasksRegions.unclosed fun u t hs hu => hclosed ⟨u, t, hs, hu⟩
          rwa [List.replicate_succ, ← hall] at h
      · have hflag : maskFrom .escaped .plain (x :: s) = false :: maskFrom .escaped .plain s := by
          simp [maskFrom, hq]
        rw [hflag]
        exact .plain hq (masksRegions_maskFrom s)
termination_by s.length
decreasing_by
  · exact Nat.lt_succ_of_lt hlt
  · exact Nat.lt_succ_self _

/-- Every text has one mask. -/
theorem masks_iff : Masks mode s m ↔ m = maskFrom mode .plain s := by
  cases mode with
  | naive =>
      have h := maskFrom_naive 0 s
      simp only [Nat.zero_add] at h
      rw [Masks, ← h]
      rfl
  | escaped =>
      refine ⟨maskFrom_of_masksRegions, ?_⟩
      rintro rfl
      exact masksRegions_maskFrom s

/-- The characters that the mask of a scan leaves unquoted are those that the scan comes upon outside
quotes. -/
theorem count_zip_maskFrom (hx : x ≠ '"') (r : Region) (s : List Char) (n : Nat) :
    ((s.zip (maskFrom mode r s)).take n).count (x, false) = (outsideFrom mode r (s.take n)).count x := by
  induction s generalizing r n with
  | nil => simp [outsideFrom]
  | cons y s ih =>
      cases n with
      | zero => simp [outsideFrom]
      | succ n =>
          rw [maskFrom, List.zip_cons_cons, List.take_succ_cons, List.take_succ_cons,
            List.count_cons, ih]
          by_cases hr : r = .plain
          · subst hr
            rw [outsideFrom_plain, List.count_cons]
            congr 1
            by_cases hy : y = x
            · subst hy
              simp [hx]
            · simp [hy]
          · rw [outsideFrom_of_ne hr]
            simp [hr]

/-- What is quoted in a text is so whatever follows, so the brackets up to a place balance as they do
in the text up to there. -/
theorem maskedBalance_eq (h : Masks mode s m) : maskedBalance k s m n = balance k mode (s.take n) := by
  obtain rfl := masks_iff.mp h
  rw [maskedBalance, balance_eq, Kind.excess, count_zip_maskFrom k.opening_ne_mark,
    count_zip_maskFrom k.closing_ne_mark]

end SigilCall.Literal
