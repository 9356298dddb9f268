import SigilCall.Json.Parts
import SigilCall.Proofs.Json.Writes

namespace SigilCall.Json

variable {n : Nat} {k : String} {v w : Json} {es fs : List (String × Json)} {e : String × Json}

theorem mem_insert (h : e ∈ insert k v es) : e = (k, v) ∨ e ∈ es := by
  induction es with
  | nil => exact .inl (List.mem_singleton.mp h)
  | cons f es ih =>
      rw [insert] at h
      split at h
      · next hk =>
          rcases List.mem_cons.mp h with rfl | h
          · exact .inl (by rw [hk])
          · exact .inr (List.mem_cons_of_mem f h)
      · rcases List.mem_cons.mp h with rfl | h
        · exact .inr (List.mem_cons_self)
        · rcases ih h with rfl | h
          · exact .inl rfl
          · exact .inr (List.mem_cons_of_mem f h)

theorem map_fst_insert :
    (insert k v es).map Prod.fst =
      if k ∈ es.map Prod.fst then es.map Prod.fst else es.map Prod.fst ++ [k] := by
  induction es with
  | nil => rfl
  | cons f es ih =>
      rw [insert]
      by_cases hk : f.1 = k
      · rw [if_pos hk, if_pos (by simp [hk])]
        rfl
      · rw [if_neg hk, List.map_cons, ih]
        by_cases hmem : k ∈ es.map Prod.fst
        · rw [if_pos hmem, if_pos (by simp [hmem])]
          rfl
        · rw [if_neg hmem, if_neg (by simp [hmem, Ne.symm hk])]
          rfl

theorem nodup_insert (h : (es.map Prod.fst).Nodup) : ((insert k v es).map Prod.fst).Nodup := by
  rw [map_fst_insert]
  split
  · exact h
  · next hk =>
      rw [List.nodup_append]
      refine ⟨h, by simp, ?_⟩
      rintro a ha b hb rfl
      exact hk (List.mem_singleton.mp hb ▸ ha)

theorem mem_foldl_insert (h : e ∈ fs.foldl (fun done e => insert e.1 e.2 done) es) :
    e ∈ es ∨ e ∈ fs := by
  induction fs generalizing es with
  | nil => exact .inl h
  | cons f fs ih =>
      rcases ih h with h | h
      · rcases mem_insert h with rfl | h
        · exact .inr List.mem_cons_self
        · exact .inl h
      · exact .inr (List.mem_cons_of_mem f h)

theorem mem_collect (h : e ∈ collect es) : e ∈ es := by
  rcases mem_foldl_insert h with h | h
  · cases h
  · exact h

theorem nodup_foldl_insert (h : (es.map Prod.fst).Nodup) :
    ((fs.foldl (fun done e => insert e.1 e.2 done) es).map Prod.fst).Nodup := by
  induction fs generalizing es with
  | nil => exact h
  | cons f fs ih => exact ih (nodup_insert h)

theorem nodup_collect (es : List (String × Json)) : ((collect es).map Prod.fst).Nodup :=
  nodup_foldl_insert List.nodup_nil

@[simp] theorem levelsEntries_le_iff : levelsEntries es ≤ n ↔ ∀ e ∈ es, e.2.levels ≤ n := by
  induction es with
  | nil => simp
  | cons e es ih => rw [levelsEntries_cons, List.forall_mem_cons, ← ih, Nat.max_le]

@[simp] theorem mem_partsEntries : w ∈ partsEntries es ↔ ∃ e ∈ es, w ∈ e.2.parts := by
  induction es with
  | nil => simp [partsEntries]
  | cons e es ih => simp [ih]

theorem keysDistinct_object (h : (es.map Prod.fst).Nodup) (hes : ∀ e ∈ es, e.2.KeysDistinct) :
    KeysDistinct (.object es) := by
  intro fs hfs
  rcases List.mem_cons.mp hfs with hfs | hfs
  · cases hfs
    exact h
  · obtain ⟨e, he, hfs⟩ := mem_partsEntries.mp hfs
    exact hes e he fs hfs

mutual

/-- A value that a text writes is no deeper than its brackets, and its objects have no key twice. -/
theorem wellFormed_of_writes {n : Nat} {s : List Char} {v : Json} (h : Writes n s v) :
    v.levels ≤ n ∧ v.KeysDistinct := by
  match h with
  | .null | .true | .false | .number _ _ | .string _ =>
      exact ⟨Nat.zero_le _, fun es hes => nomatch List.mem_singleton.mp hes⟩
  | .emptyArray _ =>
      exact ⟨Nat.le_add_left _ _, fun es hes => nomatch List.mem_singleton.mp hes⟩
  | .array hvs =>
      obtain ⟨hn, hk⟩ := wellFormed_of_writesItems hvs
      refine ⟨Nat.succ_le_succ hn, fun es hes => ?_⟩
      rcases List.mem_cons.mp hes with hes | hes
      · cases hes
      · exact hk es hes
  | .emptyObject _ => exact ⟨Nat.le_add_left _ _, keysDistinct_object List.nodup_nil (fun e he => nomatch he)⟩
  | .object hes =>
      have hentries := wellFormed_of_writesEntries hes
      refine ⟨Nat.succ_le_succ (levelsEntries_le_iff.mpr fun e he => (hentries e (mem_collect he)).1), ?_⟩
      exact keysDistinct_object (nodup_collect _) fun e he => (hentries e (mem_collect he)).2

theorem wellFormed_of_writesElement {n : Nat} {s : List Char} {v : Json} (h : WritesElement n s v) :
    v.levels ≤ n ∧ v.KeysDistinct := by
  match h with
  | .mk _ hv _ => exact wellFormed_of_writes hv

theorem wellFormed_of_writesItems {n : Nat} {s : List Char} {vs : List Json}
    (h : WritesItems n s vs) :
    levelsItems vs ≤ n ∧ ∀ es, .object es ∈ partsItems vs → (es.map Prod.fst).Nodup := by
  match h with
  | .one hv =>
      obtain ⟨hn, hk⟩ := wellFormed_of_writesElement hv
      refine ⟨Nat.max_le.mpr ⟨hn, Nat.zero_le _⟩, fun es hes => hk es ?_⟩
      simpa [partsItems] using hes
  | .more hv hvs =>
      obtain ⟨hn, hk⟩ := wellFormed_of_writesElement hv
      obtain ⟨hns, hks⟩ := wellFormed_of_writesItems hvs
      refine ⟨Nat.max_le.mpr ⟨hn, hns⟩, fun es hes => ?_⟩
      rcases List.mem_append.mp hes with hes | hes
      · exact hk es hes
      · exact hks es hes

theorem wellFormed_of_writesEntry {n : Nat} {s : List Char} {e : String × Json}
    (h : WritesEntry n s e) : e.2.levels ≤ n ∧ e.2.KeysDistinct := by
  match h with
  | .mk _ _ _ hv => exact wellFormed_of_writesElement hv

theorem wellFormed_of_writesEntries {n : Nat} {s : List Char} {es : List (String × Json)}
    (h : WritesEntries n s es) : ∀ e ∈ es, e.2.levels ≤ n ∧ e.2.KeysDistinct := by
  match h with
  | .one he => exact List.forall_mem_singleton.mpr (wellFormed_of_writesEntry he)
  | .more he hes =>
      exact List.forall_mem_cons.mpr
        ⟨wellFormed_of_writesEntry he, wellFormed_of_writesEntries hes⟩

end

end SigilCall.Json
