import SigilCall.Proofs.Json.Levels

namespace SigilCall.Json

variable {k : String} {v w : Json} {es fs : List (String × Json)} {vs ws : List Json}

theorem lookup_of_mem (hk : (es.map Prod.fst).Nodup) (h : (k, v) ∈ es) : es.lookup k = some v := by
  induction es with
  | nil => cases h
  | cons e es ih =>
      rw [List.map_cons, List.nodup_cons] at hk
      rcases List.mem_cons.mp h with rfl | h
      · rw [List.lookup_cons, beq_self_eq_true]
      · have hne : k ≠ e.1 := by
          rintro rfl
          exact hk.1 (List.mem_map.mpr ⟨_, h, rfl⟩)
        rw [List.lookup_cons, beq_eq_false_iff_ne.mpr hne]
        exact ih hk.2 h

/-- A list without repetitions that is as long as a list it is part of has all its members. -/
theorem subset_of_length_le {l m : List String} (hl : l.Nodup) (hs : l ⊆ m)
    (hlen : m.length ≤ l.length) : m ⊆ l := by
  intro x hx
  by_cases hmem : x ∈ l
  · exact hmem
  · have hnodup : (x :: l).Nodup := List.nodup_cons.mpr ⟨hmem, hl⟩
    have hsub : (x :: l) ⊆ m := List.cons_subset.mpr ⟨hx, hs⟩
    have := hnodup.length_le_of_subset hsub
    rw [List.length_cons] at this
    omega

theorem mem_of_lookup (h : es.lookup k = some v) : (k, v) ∈ es := by
  induction es with
  | nil => cases h
  | cons e es ih =>
      rw [List.lookup_cons] at h
      split at h
      · next hk =>
          cases h
          rw [eq_of_beq hk]
          exact List.mem_cons_self
      · exact List.mem_cons_of_mem _ (ih h)

theorem keys_subset_of_beqEntries (h : beqEntries es fs = true) :
    es.map Prod.fst ⊆ fs.map Prod.fst := by
  induction es with
  | nil => exact List.nil_subset _
  | cons e es ih =>
      obtain ⟨k, v⟩ := e
      rw [beqEntries, Bool.and_eq_true] at h
      refine List.cons_subset.mpr ⟨?_, ih h.2⟩
      cases hl : fs.lookup k with
      | none =>
          rw [hl] at h
          cases h.1
      | some w => exact List.mem_map.mpr ⟨_, mem_of_lookup hl, rfl⟩

theorem keysDistinct_items (h : KeysDistinct (.array vs)) :
    ∀ es, .object es ∈ partsItems vs → (es.map Prod.fst).Nodup :=
  fun es hes => h es (List.mem_cons_of_mem _ hes)

theorem keysDistinct_entries (h : KeysDistinct (.object es)) :
    ∀ fs, .object fs ∈ partsEntries es → (fs.map Prod.fst).Nodup :=
  fun fs hfs => h fs (List.mem_cons_of_mem _ hfs)

theorem float_beq_self {x : Float} (h : x.isFinite = true) : (x == x) = true := by
  change (x.toModel.unpack.compare x.toModel.unpack == some .eq) = true
  change x.toModel.unpack.isFinite = true at h
  cases hu : x.toModel.unpack with
  | infinity | notANumber =>
      rw [hu] at h
      cases h
  | zero s => rfl
  | finite s m e hm =>
      have hexponent : compare e e = .eq := Std.ReflCmp.compare_self
      have hmantissa : compare m m = .eq := Nat.compare_eq_eq.mpr rfl
      cases s with
      | negative =>
          change (some ((compare e e).then (compare m m)).swap == some .eq) = true
          rw [hexponent, hmantissa]
          rfl
      | positive =>
          change (some ((compare e e).then (compare m m)) == some .eq) = true
          rw [hexponent, hmantissa]
          rfl

@[simp] theorem number_beq_self (x : Number) : (x == x) = true := by
  cases x with
  | integer i h => exact beq_self_eq_true i
  | float x h => exact float_beq_self h

mutual

theorem beq_self (v : Json) (h : KeysDistinct v) : v.beq v = true := by
  match v with
  | .null => rfl
  | .bool b => exact beq_self_eq_true b
  | .number x => exact number_beq_self x
  | .string s => exact beq_self_eq_true s
  | .array vs => exact beqItems_self vs (keysDistinct_items h)
  | .object es =>
      have hkeys := h es List.mem_cons_self
      have hentries := beqEntries_self es (keysDistinct_entries h) es fun e he => lookup_of_mem hkeys he
      rw [Json.beq, beq_self_eq_true, hentries]
      rfl

theorem beqItems_self (vs : List Json)
    (h : ∀ es, .object es ∈ partsItems vs → (es.map Prod.fst).Nodup) : beqItems vs vs = true := by
  match vs with
  | [] => rfl
  | v :: vs =>
      rw [beqItems, beq_self v fun es hes => h es (List.mem_append_left _ hes),
        beqItems_self vs fun es hes => h es (List.mem_append_right _ hes)]
      rfl

/-- Entries that are all found in a list are equal to what is found there. -/
theorem beqEntries_self (es : List (String × Json))
    (h : ∀ fs, .object fs ∈ partsEntries es → (fs.map Prod.fst).Nodup) (fs : List (String × Json))
    (hfs : ∀ e ∈ es, fs.lookup e.1 = some e.2) : beqEntries es fs = true := by
  match es with
  | [] => rfl
  | (k, v) :: es =>
      obtain ⟨hv, hes⟩ := List.forall_mem_cons.mp hfs
      have hbeq := beq_self v fun gs hgs => h gs (List.mem_append_left _ hgs)
      have hrest := beqEntries_self es (fun gs hgs => h gs (List.mem_append_right _ hgs)) fs hes
      rw [beqEntries, hv, hrest, Bool.and_true]
      exact hbeq

end

mutual

/-- Equal values are equally deep. -/
theorem levels_le_of_beq (v w : Json) (h : v.beq w = true) (hv : KeysDistinct v)
    (hw : KeysDistinct w) : w.levels ≤ v.levels := by
  match v, w with
  | .array vs, .array ws =>
      exact Nat.succ_le_succ
        (levelsItems_le_of_beqItems vs ws h (keysDistinct_items hv) (keysDistinct_items hw))
  | .object es, .object fs =>
      rw [Json.beq, Bool.and_eq_true, beq_iff_eq] at h
      have hkeys : (fs.map Prod.fst).Nodup := hw fs List.mem_cons_self
      have hsub : fs.map Prod.fst ⊆ es.map Prod.fst :=
        subset_of_length_le (hv es List.mem_cons_self) (keys_subset_of_beqEntries h.2)
          (Nat.le_of_eq (by rw [List.length_map, List.length_map, h.1]))
      apply Nat.succ_le_succ
      apply levelsEntries_le_iff.mpr
      intro e he
      exact levels_le_of_beqEntries es fs h.2 (keysDistinct_entries hv) (keysDistinct_entries hw)
        (lookup_of_mem hkeys he) (hsub (List.mem_map_of_mem he))
  | _, .null | _, .bool _ | _, .number _ | _, .string _ => exact Nat.zero_le _
  | .null, .array _ | .bool _, .array _ | .number _, .array _ | .string _, .array _
  | .object _, .array _ | .null, .object _ | .bool _, .object _ | .number _, .object _
  | .string _, .object _ | .array _, .object _ => cases h

theorem levelsItems_le_of_beqItems (vs ws : List Json) (h : beqItems vs ws = true)
    (hv : ∀ es, .object es ∈ partsItems vs → (es.map Prod.fst).Nodup)
    (hw : ∀ es, .object es ∈ partsItems ws → (es.map Prod.fst).Nodup) :
    levelsItems ws ≤ levelsItems vs := by
  match vs, ws with
  | _, [] => exact Nat.zero_le _
  | [], w :: ws => cases h
  | v :: vs, w :: ws =>
      rw [beqItems, Bool.and_eq_true] at h
      have hfirst := levels_le_of_beq v w h.1 (fun es hes => hv es (List.mem_append_left _ hes))
        fun es hes => hw es (List.mem_append_left _ hes)
      have hrest := levelsItems_le_of_beqItems vs ws h.2
        (fun es hes => hv es (List.mem_append_right _ hes))
        fun es hes => hw es (List.mem_append_right _ hes)
      exact Nat.max_le.mpr
        ⟨Nat.le_trans hfirst (Nat.le_max_left _ _), Nat.le_trans hrest (Nat.le_max_right _ _)⟩

theorem levels_le_of_beqEntries (es fs : List (String × Json)) (h : beqEntries es fs = true)
    (hv : ∀ gs, .object gs ∈ partsEntries es → (gs.map Prod.fst).Nodup)
    (hw : ∀ gs, .object gs ∈ partsEntries fs → (gs.map Prod.fst).Nodup) {k : String} {w : Json}
    (hl : fs.lookup k = some w) (hk : k ∈ es.map Prod.fst) : w.levels ≤ levelsEntries es := by
  match es with
  | [] => cases hk
  | (k', v) :: es =>
      rw [beqEntries, Bool.and_eq_true] at h
      by_cases hkey : k = k'
      · subst hkey
        rw [hl] at h
        have hparts : w.KeysDistinct := fun gs hgs =>
          hw gs (mem_partsEntries.mpr ⟨_, mem_of_lookup hl, hgs⟩)
        exact Nat.le_trans
          (levels_le_of_beq v w h.1 (fun gs hgs => hv gs (List.mem_append_left _ hgs)) hparts)
          (Nat.le_max_left _ _)
      · have hmem : k ∈ es.map Prod.fst := (List.mem_cons.mp hk).resolve_left hkey
        exact Nat.le_trans
          (levels_le_of_beqEntries es fs h.2 (fun gs hgs => hv gs (List.mem_append_right _ hgs)) hw
            hl hmem)
          (Nat.le_max_right _ _)

end

end SigilCall.Json
