import SigilCall.Proofs.Call.Offsets

namespace SigilCall

open Text Literal

variable {α : Type} {cfg : Config} {depth n m : Nat} {c d b e f g : Cursor} {x : CallError}
  {a : Argument} {args : List Argument} {es es' : List Event} {ps qs : List Nat}

structure Ascends (n : Nat) (ps : List Nat) : Prop where
  increasing : ps.Pairwise (· < ·)
  notBefore : ∀ p ∈ ps, n ≤ p

theorem ascends_nil (n : Nat) : Ascends n [] := ⟨.nil, by simp⟩

theorem ascends_cons : Ascends n (m :: ps) ↔ n ≤ m ∧ Ascends (m + 1) ps := by
  constructor
  · rintro ⟨hinc, hn⟩
    obtain ⟨hm, hinc⟩ := List.pairwise_cons.mp hinc
    exact ⟨hn m (by simp), hinc, hm⟩
  · rintro ⟨hn, hinc, hm⟩
    refine ⟨List.pairwise_cons.mpr ⟨hm, hinc⟩, List.forall_mem_cons.mpr ⟨hn, fun p hp => ?_⟩⟩
    exact Nat.le_trans (Nat.le_succ_of_le hn) (hm p hp)

@[simp] theorem ascends_singleton : Ascends n [m] ↔ n ≤ m := by
  rw [ascends_cons, and_iff_left (ascends_nil _)]

namespace Ascends

theorem mono (h : Ascends m ps) (hn : n ≤ m) : Ascends n ps :=
  ⟨h.increasing, fun p hp => Nat.le_trans hn (h.notBefore p hp)⟩

theorem append (h : Ascends n ps) (h' : Ascends m qs) (hm : ∀ p ∈ ps, p < m) (hn : n ≤ m) :
    Ascends n (ps ++ qs) := by
  refine ⟨List.pairwise_append.mpr ⟨h.increasing, h'.increasing, fun p hp q hq => ?_⟩,
    List.forall_mem_append.mpr ⟨h.notBefore, (h'.mono hn).notBefore⟩⟩
  exact Nat.lt_of_lt_of_le (hm p hp) (h'.notBefore q hq)

theorem left (h : Ascends n (ps ++ qs)) : Ascends n ps :=
  ⟨(List.pairwise_append.mp h.increasing).1,
    fun p hp => h.notBefore p (List.mem_append_left _ hp)⟩

/-- The last number is the largest. -/
theorem le_last (h : Ascends n (ps ++ [m])) : ∀ p ∈ ps ++ [m], p ≤ m := by
  have hlt := (List.pairwise_append.mp h.increasing).2.2
  exact List.forall_mem_append.mpr
    ⟨fun p hp => Nat.le_of_lt (hlt p hp m (by simp)), by simp⟩

end Ascends

def positions (es : List Event) : List Nat := es.flatMap Event.positions

@[simp] theorem positions_append (es es' : List Event) :
    positions (es ++ es') = positions es ++ positions es' :=
  List.flatMap_append

def NotAfter (es : List Event) : Except CallError (α × Cursor) → Prop
  | .error _ => True
  | .ok (_, d) => ∀ p ∈ positions es, p ≤ d.pos

def CallAscends (c : Cursor) (es : List Event) (o : Except CallError (Call × Cursor)) : Prop :=
  Ascends c.pos (positions (es ++ [outcomeEvent o]))

structure PartAscends (c : Cursor) (es : List Event) (o : Except CallError (α × Cursor)) : Prop where
  ascends : Ascends c.pos (positions es)
  notAfter : NotAfter es o

theorem callAscends_error : CallAscends c es (.error x) ↔ Ascends c.pos (positions es) := by
  rw [CallAscends, positions_append, outcomeEvent]
  exact iff_of_eq (congrArg _ (List.append_nil _))

theorem Opens.pos_lt (h : Opens c b e) : b.pos < e.pos :=
  Nat.lt_of_le_of_lt (Cursor.pos_le (le_skipName b)) (h.parenthesis.pos_lt (List.cons_ne_nil _ _))

theorem le_of_sigil (h : c.skipSpace.Passes ['$'] b) : c.pos ≤ b.pos :=
  Cursor.pos_le (Cursor.le_trans c.le_skipSpace h.le)

theorem ascends_nameRead {v : String} (ho : Opens c b e) (h : Ascends e.pos (positions es)) :
    Ascends c.pos (positions (.nameRead v depth b.pos :: es)) :=
  ascends_cons.mpr ⟨le_of_sigil ho.sigil, h.mono ho.pos_lt⟩

theorem callAscends_call (ho : Opens c b e) (hle : e ≤ f) (h : PartAscends e es (.ok (args, f)))
    (hg : f.skipSpace.Passes [')'] g) :
    CallAscends c (.nameRead b.name depth b.pos :: es) (.ok (⟨b.name, args⟩, g)) := by
  have hlt : f.pos < g.pos :=
    Nat.lt_of_le_of_lt (pos_le_skipSpace f) (hg.pos_lt (List.cons_ne_nil _ _))
  apply ascends_nameRead ho
  change Ascends e.pos (positions (es ++ [.finished b.name args.length g.pos]))
  rw [positions_append]
  refine h.ascends.append (ascends_singleton.mpr (Nat.le_refl _)) (fun p hp => ?_)
    (Nat.le_trans (Cursor.pos_le hle) (Nat.le_of_lt hlt))
  exact Nat.lt_of_le_of_lt (h.notAfter p hp) hlt

theorem partAscends_last (h : PartAscends c.skipSpace es (.ok (a, d))) :
    PartAscends c es (.ok ([a], d.skipSpace)) :=
  ⟨h.ascends.mono (pos_le_skipSpace c), fun p hp => Nat.le_trans (h.notAfter p hp) (pos_le_skipSpace d)⟩

theorem ascends_append (h : PartAscends c.skipSpace es (.ok (a, d))) (hle : c ≤ e)
    (he : d.skipSpace.Passes [','] e) (h' : Ascends e.pos (positions es')) :
    Ascends c.pos (positions (es ++ es')) := by
  have hlt : d.pos < e.pos :=
    Nat.lt_of_le_of_lt (pos_le_skipSpace d) (he.pos_lt (List.cons_ne_nil _ _))
  rw [positions_append]
  exact (h.ascends.mono (pos_le_skipSpace c)).append h' (fun p hp => Nat.lt_of_le_of_lt (h.notAfter p hp) hlt)
    (Cursor.pos_le hle)

theorem partAscends_more (h : PartAscends c.skipSpace es (.ok (a, d))) (hle : c ≤ e)
    (he : d.skipSpace.Passes [','] e) (hle' : e ≤ f) (h' : PartAscends e es' (.ok (args, f))) :
    PartAscends c (es ++ es') (.ok (a :: args, f)) := by
  have hd : d.pos ≤ f.pos :=
    Cursor.pos_le (Cursor.le_trans d.le_skipSpace (Cursor.le_trans he.le hle'))
  refine ⟨ascends_append h hle he h'.ascends, ?_⟩
  rw [NotAfter, positions_append]
  exact List.forall_mem_append.mpr ⟨fun p hp => Nat.le_trans (h.notAfter p hp) hd, h'.notAfter⟩

theorem partAscends_call {v : Call} (h : CallAscends c es (.ok (v, d))) :
    PartAscends c es (.ok (v.toArgument, d)) := by
  rw [CallAscends, positions_append] at h
  exact ⟨h.left, fun p hp => h.le_last p (List.mem_append_left _ hp)⟩

theorem pos_lt_skipSpan {k : Kind} (mode : Quoting) (hk : c.peek? = some k.opening) :
    c.pos < (c.skipSpan k mode).pos := by
  apply (c.passes_skipSpan k mode).pos_lt
  intro htext
  have hopening : (Span.scan k mode c.rest).text.head? = some k.opening := head?_scan hk
  rw [htext] at hopening
  cases hopening

theorem ascends_spanEvent {k : Kind} (mode : Quoting) (hk : c.peek? = some k.opening) :
    Ascends c.pos (positions [spanEvent mode k c]) :=
  ascends_cons.mpr ⟨Nat.le_refl _, ascends_singleton.mpr (pos_lt_skipSpan mode hk)⟩

theorem partAscends_literal {k : Kind} (mode : Quoting) (hk : c.peek? = some k.opening) :
    PartAscends c [spanEvent mode k c] (.ok (a, c.skipSpan k mode)) := by
  have h : Ascends c.pos ([c.pos] ++ [(c.skipSpan k mode).pos]) := ascends_spanEvent mode hk
  exact ⟨h, h.le_last⟩

theorem partAscends_raw (c : Cursor) : PartAscends c [rawEvent c] (.ok (a, c.skipRaw)) := by
  refine ⟨ascends_singleton.mpr (Cursor.pos_le c.le_skipRaw), ?_⟩
  simp [NotAfter, positions, rawEvent, Event.positions]

mutual

/-- Nothing that is read has a position twice, or one before that of what was read earlier. -/
theorem callAscends_of_reads {cfg : Config} {depth : Nat} {c : Cursor} {es : List Event}
    {o : Except CallError (Call × Cursor)} (h : ReadsCall cfg depth c es o) :
    CallAscends c es o := by
  match h with
  | .tooDeep _ | .noSigil _ _ => exact ascends_nil _
  | .noOpening _ hb _ => exact ascends_singleton.mpr (le_of_sigil hb)
  | .badArguments _ ho hl =>
      exact callAscends_error.mpr (ascends_nameRead ho (partAscends_of_readsList hl).ascends)
  | .noClosing _ ho hl _ =>
      exact callAscends_error.mpr (ascends_nameRead ho (partAscends_of_readsList hl).ascends)
  | .call _ ho hl hg =>
      exact callAscends_call ho (ahead_of_readsList hl) (partAscends_of_readsList hl) hg

theorem partAscends_of_readsList {cfg : Config} {depth : Nat} {c : Cursor} {es : List Event}
    {o : Except CallError (List Argument × Cursor)} (h : ReadsList cfg depth c es o) :
    PartAscends c es o := by
  match h with
  | .badFirst ha =>
      exact ⟨(partAscends_of_readsArgument ha).ascends.mono (pos_le_skipSpace c), trivial⟩
  | .last ha _ => exact partAscends_last (partAscends_of_readsArgument ha)
  | .badRest ha he hl =>
      exact ⟨ascends_append (partAscends_of_readsArgument ha) (le_of_comma ha he) he
        (partAscends_of_readsList hl).ascends, trivial⟩
  | .more ha he hl =>
      exact partAscends_more (partAscends_of_readsArgument ha) (le_of_comma ha he) he
        (ahead_of_readsList hl) (partAscends_of_readsList hl)

theorem partAscends_of_readsArgument {cfg : Config} {depth : Nat} {c : Cursor} {es : List Event}
    {o : Except CallError (Argument × Cursor)} (h : ReadsArgument cfg depth c es o) :
    PartAscends c es o := by
  match h with
  | .badCall _ hc => exact ⟨callAscends_error.mp (callAscends_of_reads hc), trivial⟩
  | .call _ hc => exact partAscends_call (callAscends_of_reads hc)
  | .badLiteral hk _ => exact ⟨ascends_spanEvent _ hk, trivial⟩
  | .literal hk _ _ => exact partAscends_literal _ hk
  | .raw _ => exact partAscends_raw c

end

theorem increasing_positions_trace (cfg : Config) (text : String) :
    (positions (cfg.trace text)).Pairwise (· < ·) := by
  have h := (obeys_rules cfg).1 1 (.start text.toList)
  rw [Config.trace, events_run_of_reads h]
  exact (callAscends_of_reads h).increasing

end SigilCall
