import SigilCall.Proofs.Call.Invocation

namespace SigilCall

open Literal Relation

inductive Invocation.Emits (cfg : Config) : Invocation → Event → Prop
  | name {depth : Nat} {c b : Cursor} : depth ≤ cfg.maxDepth → c.skipSpace.Passes ['$'] b →
      Emits cfg (.call depth c) (.nameRead b.name depth b.pos)
  | span {depth : Nat} {c : Cursor} {k : Kind} : c.peek? = some k.opening →
      Emits cfg (.argument depth c) (spanEvent cfg.quoting k c)
  | raw {depth : Nat} {c : Cursor} : c.IsPlain → Emits cfg (.argument depth c) (rawEvent c)

def Invocation.Leads (cfg : Config) (i : Invocation) (x : Event) : Prop :=
  ∃ j, ReflTransGen (Invokes cfg) i j ∧ j.Emits cfg x

variable {cfg : Config} {depth : Nat} {c d b e : Cursor} {i : Invocation} {x : Event} {k : Kind}

theorem leads_iff : i.Leads cfg x ↔ i.Emits cfg x ∨ ∃ j, Invokes cfg i j ∧ j.Leads cfg x := by
  constructor
  · rintro ⟨j, hreach, hx⟩
    rcases ReflTransGen.cases_head hreach with rfl | ⟨l, hfirst, hrest⟩
    · exact .inl hx
    · exact .inr ⟨l, hfirst, j, hrest, hx⟩
  · rintro (hx | ⟨l, hfirst, j, hrest, hx⟩)
    · exact ⟨i, .refl, hx⟩
    · exact ⟨j, .head hfirst hrest, hx⟩

theorem not_leads_of_lt (hd : cfg.maxDepth < depth) : ¬ (Invocation.call depth c).Leads cfg x := by
  rw [leads_iff]
  rintro (hx | ⟨j, hj, -⟩)
  · cases hx with
    | name hd' _ => exact Nat.not_le.mpr hd hd'
  · cases hj with
    | arguments hd' _ => exact Nat.not_le.mpr hd hd'

theorem not_leads_of_peek? (hs : c.skipSpace.peek? ≠ some '$') :
    ¬ (Invocation.call depth c).Leads cfg x := by
  rw [leads_iff]
  rintro (hx | ⟨j, hj, -⟩)
  · cases hx with
    | name _ hb => exact hs (hb.peek?_eq_some rfl)
  · cases hj with
    | arguments _ ho => exact hs (ho.sigil.peek?_eq_some rfl)

theorem emits_call_iff (hd : depth ≤ cfg.maxDepth) (hb : c.skipSpace.Passes ['$'] b) :
    (Invocation.call depth c).Emits cfg x ↔ x = .nameRead b.name depth b.pos := by
  constructor
  · intro hx
    cases hx with
    | name _ hb' => rw [hb.unique hb']
  · rintro rfl
    exact .name hd hb

theorem leads_call_of_peek? (hd : depth ≤ cfg.maxDepth) (hb : c.skipSpace.Passes ['$'] b)
    (hs : b.skipName.peek? ≠ some '(') :
    (Invocation.call depth c).Leads cfg x ↔ x = .nameRead b.name depth b.pos := by
  rw [leads_iff, emits_call_iff hd hb, or_iff_left]
  rintro ⟨j, hj, -⟩
  cases hj with
  | arguments _ ho =>
      obtain rfl := hb.unique ho.sigil
      exact hs (ho.parenthesis.peek?_eq_some rfl)

theorem leads_call (hd : depth ≤ cfg.maxDepth) (ho : Opens c b e) :
    (Invocation.call depth c).Leads cfg x ↔
      x = .nameRead b.name depth b.pos ∨ (Invocation.list depth e).Leads cfg x := by
  rw [leads_iff, emits_call_iff hd ho.sigil]
  refine or_congr_right ⟨?_, fun hx => ⟨_, .arguments hd ho, hx⟩⟩
  rintro ⟨j, hj, hx⟩
  cases hj with
  | arguments _ ho' =>
      obtain rfl := ho.unique ho'
      exact hx

theorem leads_list_of_last
    (h : ∀ es a d e, ReadsArgument cfg depth c.skipSpace es (.ok (a, d)) →
      ¬ d.skipSpace.Passes [','] e) :
    (Invocation.list depth c).Leads cfg x ↔ (Invocation.argument depth c.skipSpace).Leads cfg x := by
  rw [leads_iff]
  constructor
  · rintro (hx | ⟨j, hj, hx⟩)
    · cases hx
    · cases hj with
      | first => exact hx
      | rest ha he => exact absurd he (h _ _ _ _ ha)
  · exact fun hx => .inr ⟨_, .first, hx⟩

theorem leads_list {es : List Event} {a : Argument}
    (ha : ReadsArgument cfg depth c.skipSpace es (.ok (a, d))) (he : d.skipSpace.Passes [','] e) :
    (Invocation.list depth c).Leads cfg x ↔
      (Invocation.argument depth c.skipSpace).Leads cfg x ∨ (Invocation.list depth e).Leads cfg x := by
  rw [leads_iff]
  constructor
  · rintro (hx | ⟨j, hj, hx⟩)
    · cases hx
    · cases hj with
      | first => exact .inl hx
      | rest ha' he' =>
          cases ha.unique ha'
          obtain rfl := he.unique he'
          exact .inr hx
  · rintro (hx | hx)
    · exact .inr ⟨_, .first, hx⟩
    · exact .inr ⟨_, .rest ha he, hx⟩

theorem leads_argument_call (hs : c.peek? = some '$') :
    (Invocation.argument depth c).Leads cfg x ↔ (Invocation.call (depth + 1) c).Leads cfg x := by
  rw [leads_iff]
  constructor
  · rintro (hx | ⟨j, hj, hx⟩)
    · cases hx with
      | @span _ _ k hk => exact absurd (Option.some.inj (hk.symm.trans hs)) k.opening_ne_dollar
      | raw hp => exact absurd hs hp.ne_dollar
    · cases hj with
      | nested _ => exact hx
  · exact fun hx => .inr ⟨_, .nested hs, hx⟩

theorem leads_argument_literal (hk : c.peek? = some k.opening) :
    (Invocation.argument depth c).Leads cfg x ↔ x = spanEvent cfg.quoting k c := by
  rw [leads_iff]
  constructor
  · rintro (hx | ⟨j, hj, -⟩)
    · cases hx with
      | span hk' => rw [Kind.opening_injective (Option.some.inj (hk'.symm.trans hk))]
      | raw hp => exact absurd hk (hp.ne_opening k)
    · cases hj with
      | nested hs => exact absurd (Option.some.inj (hk.symm.trans hs)) k.opening_ne_dollar
  · rintro rfl
    exact .inl (.span hk)

theorem leads_argument_raw (hp : c.IsPlain) :
    (Invocation.argument depth c).Leads cfg x ↔ x = rawEvent c := by
  rw [leads_iff]
  constructor
  · rintro (hx | ⟨j, hj, -⟩)
    · cases hx with
      | @span _ _ k hk => exact absurd hk (hp.ne_opening k)
      | raw _ => rfl
    · cases hj with
      | nested hs => exact absurd hs hp.ne_dollar
  · rintro rfl
    exact .inl (.raw hp)

mutual

/-- What happens while a call is read are the events of the readings that it leads to. -/
theorem mem_iff_of_readsCall {cfg : Config} {depth : Nat} {c : Cursor} {es : List Event}
    {o : Except CallError (Call × Cursor)} (h : ReadsCall cfg depth c es o) (x : Event) :
    x ∈ es ↔ (Invocation.call depth c).Leads cfg x := by
  match h with
  | .tooDeep hd => exact iff_of_false List.not_mem_nil (not_leads_of_lt hd)
  | .noSigil _ hs => exact iff_of_false List.not_mem_nil (not_leads_of_peek? hs)
  | .noOpening hd hb hs => rw [List.mem_singleton, leads_call_of_peek? hd hb hs]
  | .badArguments hd ho hl | .noClosing hd ho hl _ | .call hd ho hl _ =>
      rw [List.mem_cons, leads_call hd ho, mem_iff_of_readsList hl]

theorem mem_iff_of_readsList {cfg : Config} {depth : Nat} {c : Cursor} {es : List Event}
    {o : Except CallError (List Argument × Cursor)} (h : ReadsList cfg depth c es o) (x : Event) :
    x ∈ es ↔ (Invocation.list depth c).Leads cfg x := by
  match h with
  | .badFirst ha =>
      rw [leads_list_of_last, mem_iff_of_readsArgument ha]
      intro _ _ _ _ ha'
      cases ha.unique ha'
  | .last ha hs =>
      rw [leads_list_of_last, mem_iff_of_readsArgument ha]
      intro _ _ _ _ ha' he
      cases ha.unique ha'
      exact hs (he.peek?_eq_some rfl)
  | .badRest ha he hl | .more ha he hl =>
      rw [List.mem_append, leads_list ha he, mem_iff_of_readsArgument ha, mem_iff_of_readsList hl]

theorem mem_iff_of_readsArgument {cfg : Config} {depth : Nat} {c : Cursor} {es : List Event}
    {o : Except CallError (Argument × Cursor)} (h : ReadsArgument cfg depth c es o) (x : Event) :
    x ∈ es ↔ (Invocation.argument depth c).Leads cfg x := by
  match h with
  | .badCall hs hc | .call hs hc => rw [leads_argument_call hs, mem_iff_of_readsCall hc]
  | .badLiteral hk _ | .literal hk _ _ => rw [List.mem_singleton, leads_argument_literal hk]
  | .raw hp => rw [List.mem_singleton, leads_argument_raw hp]

end

theorem Invocation.Emits.level (h : i.Emits cfg x) : x.level = .trace := by
  cases h <;> rfl

/-- The events of a run before its outcome are those of the readings that it comes to. -/
theorem mem_run_iff {text : List Char} (hx : x.level = .trace) :
    x ∈ (cfg.run text).events ↔ ∃ i, cfg.Enters text i ∧ i.Emits cfg x := by
  have h : ReadsCall cfg 1 (.start text) _ _ := readsCall_iff.mpr rfl
  rw [events_run_of_reads h, List.mem_append, mem_iff_of_readsCall h, List.mem_singleton]
  refine or_iff_left ?_
  rintro rfl
  rw [level_outcomeEvent] at hx
  cases hx

end SigilCall
