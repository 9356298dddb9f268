import SigilCall.Proofs.Call.Exactness
import SigilCall.Proofs.Call.Offsets

namespace SigilCall

open Text Literal

mutual

/-- The first call at a nesting level in the text of a call, and the offset of its `$`. The call of
the text itself is at level 1. -/
inductive FirstAt (mode : Quoting) : Nat → List Char → Call → Nat → Prop
  | self {t : List Char} {v : Call} : Derives mode t v → FirstAt mode 1 t v 0
  | inside {level n : Nat} {name u body : List Char} {args : List Argument} : IsName name →
      IsSpaces u → FirstAtList mode level body args n →
      FirstAt mode (level + 1) ('$' :: (name ++ (u ++ '(' :: (body ++ [')']))))
        ⟨String.ofList name, args⟩ (byteLength ('$' :: (name ++ (u ++ ['(']))) + n)

inductive FirstAtList (mode : Quoting) : Nat → List Char → List Argument → Nat → Prop
  | one {level n : Nat} {s : List Char} {a : Argument} : FirstAtArgument mode level s a n →
      FirstAtList mode level s [a] n
  | here {level n : Nat} {s t : List Char} {a : Argument} {args : List Argument} :
      FirstAtArgument mode level s a n → DerivesList mode t args →
      FirstAtList mode level (s ++ ',' :: t) (a :: args) n
  | later {level n : Nat} {s t : List Char} {a : Argument} {args : List Argument} :
      DerivesArgument mode s a → a.depth < level → FirstAtList mode level t args n →
      FirstAtList mode level (s ++ ',' :: t) (a :: args) (byteLength (s ++ [',']) + n)

inductive FirstAtArgument (mode : Quoting) : Nat → List Char → Argument → Nat → Prop
  | call {level n : Nat} {u t w : List Char} {v : Call} : IsSpaces u → FirstAt mode level t v n →
      IsSpaces w → FirstAtArgument mode level (u ++ (t ++ w)) v.toArgument (byteLength u + n)

end

mutual

/-- There is a first call at each level down to the depth of a call. -/
theorem exists_firstAt {mode : Quoting} {t : List Char} {v : Call} (h : Derives mode t v)
    {level : Nat} (hl : level + 1 ≤ v.depth) : ∃ n, FirstAt mode (level + 1) t v n := by
  match h, level with
  | h, 0 => exact ⟨0, .self h⟩
  | .call hn hu hargs, level + 1 =>
      obtain ⟨n, hfirst⟩ := exists_firstAtList hargs (Nat.le_of_succ_le_succ hl)
      exact ⟨_, .inside hn hu hfirst⟩

theorem exists_firstAtList {mode : Quoting} {t : List Char} {args : List Argument}
    (h : DerivesList mode t args) {level : Nat} (hl : level + 1 ≤ Argument.depthList args) :
    ∃ n, FirstAtList mode (level + 1) t args n := by
  match h with
  | .one ha =>
      rw [Argument.depthList, Argument.depthList, Nat.max_zero] at hl
      obtain ⟨n, hfirst⟩ := exists_firstAtArgument ha hl
      exact ⟨n, .one hfirst⟩
  | @DerivesList.more _ s t a args ha hargs =>
      rw [Argument.depthList] at hl
      by_cases hfits : level + 1 ≤ a.depth
      · obtain ⟨n, hfirst⟩ := exists_firstAtArgument ha hfits
        exact ⟨n, .here hfirst hargs⟩
      · have hrest : level + 1 ≤ Argument.depthList args := by omega
        obtain ⟨n, hfirst⟩ := exists_firstAtList hargs hrest
        exact ⟨_, .later ha (Nat.lt_of_not_le hfits) hfirst⟩

theorem exists_firstAtArgument {mode : Quoting} {t : List Char} {a : Argument}
    (h : DerivesArgument mode t a) {level : Nat} (hl : level + 1 ≤ a.depth) :
    ∃ n, FirstAtArgument mode (level + 1) t a n := by
  match h with
  | .call hu hc hw =>
      obtain ⟨n, hfirst⟩ := exists_firstAt hc hl
      exact ⟨_, .call hu hfirst hw⟩
  | .literal _ _ _ ha _ =>
      rw [depth_of_ofJson? ha] at hl
      cases hl
  | .raw _ => cases hl

end

variable {α : Type} {cfg : Config} {mode : Quoting} {m m' n depth level : Nat} {c d b e f g : Cursor}
  {x : CallError} {a : Argument} {args : List Argument} {es es' : List Event} {s t u w : List Char}
  {v : Call}

def CallStops (mode : Quoting) (level : Nat) (t : List Char) (n : Nat) : Prop :=
  ∀ ⦃cfg : Config⦄ ⦃depth : Nat⦄ ⦃c g : Cursor⦄ ⦃u : List Char⦄, cfg.quoting = mode →
    depth + level = cfg.maxDepth + 2 → IsSpaces u → c.Passes (u ++ t) g →
    ∃ es, ReadsCall cfg depth c es (.error (.tooDeep cfg.maxDepth (c.pos + byteLength u + n)))

def ListStops (mode : Quoting) (level : Nat) (t : List Char) (n : Nat) : Prop :=
  ∀ ⦃cfg : Config⦄ ⦃depth : Nat⦄ ⦃c d : Cursor⦄, cfg.quoting = mode →
    depth + level = cfg.maxDepth + 1 → c.Passes t d →
    ∃ es, ReadsList cfg depth c es (.error (.tooDeep cfg.maxDepth (c.pos + n)))

def ArgumentStops (mode : Quoting) (level : Nat) (t : List Char) (n : Nat) : Prop :=
  ∀ ⦃cfg : Config⦄ ⦃depth : Nat⦄ ⦃c d : Cursor⦄, cfg.quoting = mode →
    depth + level = cfg.maxDepth + 1 → c.Passes t d →
    ∃ es, ReadsArgument cfg depth c.skipSpace es (.error (.tooDeep cfg.maxDepth (c.pos + n)))

theorem pos_skipSpace (hu : IsSpaces u) (hp : c.Passes (u ++ t) d) (ht : t.head? = some '$') :
    c.skipSpace.Passes t d ∧ c.skipSpace.pos = c.pos + byteLength u := by
  obtain ⟨e, he, hd⟩ := hp.split
  obtain rfl := skipSpace_eq he hu (halts_of_peek? (hd.peek?_eq_some ht) rfl)
  exact ⟨hd, he.2⟩

theorem callStops_self (h : Derives mode t v) : CallStops mode 1 t 0 := by
  intro cfg depth c g u _ hd hu hp
  obtain ⟨-, hpos⟩ := pos_skipSpace hu hp (head?_of_derives h)
  rw [Nat.add_zero, ← hpos]
  exact ⟨[], .tooDeep (by omega)⟩

theorem callStops_inside {name body : List Char} (hn : IsName name) (hw : IsSpaces w)
    (hlevel : 0 < level) (hl : ListStops mode level body n) :
    CallStops mode (level + 1) ('$' :: (name ++ (w ++ '(' :: (body ++ [')']))))
      (byteLength ('$' :: (name ++ (w ++ ['(']))) + n) := by
  intro cfg depth c g u hm hd hu hp
  obtain ⟨b, e, ho, hbody, -⟩ := exists_opens hu hn hw hp
  have hpos : e.pos = c.pos + byteLength u + byteLength ('$' :: (name ++ (w ++ ['(']))) := by
    have hstart := hp.2
    have hend := hbody.2
    simp only [byteLength_append, byteLength_cons, byteLength_nil] at hstart hend ⊢
    omega
  obtain ⟨f, hf, -⟩ := hbody.split
  have hd' : depth + level = cfg.maxDepth + 1 := by omega
  obtain ⟨es, hread⟩ := hl hm hd' hf
  rw [hpos, Nat.add_assoc] at hread
  exact ⟨_, .badArguments (by omega) ho hread⟩

theorem listStops_first (h : ArgumentStops mode level s n) : ListStops mode level (s ++ t) n := by
  intro cfg depth c d hm hd hp
  obtain ⟨e, he, -⟩ := hp.split
  obtain ⟨es, hread⟩ := h hm hd he
  exact ⟨es, .badFirst hread⟩

theorem listStops_later (ha : ArgumentComplete mode s a) (hfits : a.depth < level)
    (hl : ListStops mode level t n) :
    ListStops mode level (s ++ ',' :: t) (byteLength (s ++ [',']) + n) := by
  intro cfg depth c d hm hd hp
  obtain ⟨e, he, hp₁⟩ := hp.split
  obtain ⟨f, hf, hp₂⟩ := hp₁.split_cons
  have hcomma : e.peek? = some ',' := hf.peek?_eq_some rfl
  have hd' : depth ≤ cfg.maxDepth := by omega
  obtain ⟨es', hrest⟩ := hl hm hd hp₂
  rw [(he.trans hf).2, Nat.add_assoc] at hrest
  obtain ⟨es, ⟨_, e'⟩, hread, rfl, rfl⟩ := (ha hm hd' he hcomma rfl).fits (by omega)
  exact ⟨_, .badRest hread hf hrest⟩

theorem argumentStops_call (hu : IsSpaces u) (ht : t.head? = some '$')
    (hc : CallStops mode level t n) : ArgumentStops mode level (u ++ (t ++ w)) (byteLength u + n) := by
  intro cfg depth c d hm hd hp
  have hhead : (t ++ w).head? = some '$' := by
    rw [List.head?_append, ht]
    rfl
  obtain ⟨hcall, hpos⟩ := pos_skipSpace hu hp hhead
  obtain ⟨e, he, -⟩ := hcall.split
  have hd' : depth + 1 + level = cfg.maxDepth + 2 := by omega
  obtain ⟨es, hread⟩ := hc (u := []) hm hd' isSpaces_nil he
  exact ⟨es, .badCall (he.peek?_eq_some ht) (by simpa [hpos, Nat.add_assoc] using hread)⟩

theorem head?_of_firstAt (h : FirstAt mode level t v n) : t.head? = some '$' := by
  cases h with
  | self h => exact head?_of_derives h
  | inside => rfl

mutual

theorem pos_of_firstAt {mode : Quoting} {level n : Nat} {t : List Char} {v : Call}
    (h : FirstAt mode level t v n) : 0 < level := by
  match h with
  | .self _ => exact Nat.zero_lt_one
  | .inside _ _ _ => exact Nat.succ_pos _

theorem pos_of_firstAtList {mode : Quoting} {level n : Nat} {t : List Char}
    {args : List Argument} (h : FirstAtList mode level t args n) : 0 < level := by
  match h with
  | .one (.call _ hc _) | .here (.call _ hc _) _ => exact pos_of_firstAt hc
  | .later _ hd _ => exact Nat.lt_of_le_of_lt (Nat.zero_le _) hd

end

mutual

/-- With the limit just above it, the reading of a text stops at its first call at a level. -/
theorem callStops_of_firstAt {mode : Quoting} {level n : Nat} {t : List Char} {v : Call}
    (h : FirstAt mode level t v n) : CallStops mode level t n := by
  match h with
  | .self h => exact callStops_self h
  | .inside hn hw hl => exact callStops_inside hn hw (pos_of_firstAtList hl) (listStops_of_firstAt hl)

theorem listStops_of_firstAt {mode : Quoting} {level n : Nat} {t : List Char}
    {args : List Argument} (h : FirstAtList mode level t args n) : ListStops mode level t n := by
  match h with
  | .one ha =>
      have := listStops_first (t := []) (argumentStops_of_firstAt ha)
      rwa [List.append_nil] at this
  | .here ha _ => exact listStops_first (argumentStops_of_firstAt ha)
  | .later ha hd hl =>
      exact listStops_later (argumentComplete_of_derives ha) hd (listStops_of_firstAt hl)

theorem argumentStops_of_firstAt {mode : Quoting} {level n : Nat} {t : List Char} {a : Argument}
    (h : FirstAtArgument mode level t a n) : ArgumentStops mode level t n := by
  match h with
  | .call hu hc _ => exact argumentStops_call hu (head?_of_firstAt hc) (callStops_of_firstAt hc)

end

/-- What a smaller limit makes of a reading: the same, or an error at the limit on the way. -/
def Cuts (m : Nat) (es : List Event) (o : Except CallError (α × Cursor)) (es' : List Event)
    (o' : Except CallError (α × Cursor)) : Prop :=
  es' = es ∧ o' = o ∨ ∃ n, o' = .error (.tooDeep m n) ∧ es' <+: es ∧ NotBefore n o

def CallCut (m : Nat) (mode : Quoting) (depth : Nat) (c : Cursor) (es : List Event)
    (o : Except CallError (Call × Cursor)) : Prop :=
  ∃ es' o', ReadsCall ⟨m, mode⟩ depth c es' o' ∧ Cuts m es o es' o'

def ListCut (m : Nat) (mode : Quoting) (depth : Nat) (c : Cursor) (es : List Event)
    (o : Except CallError (List Argument × Cursor)) : Prop :=
  ∃ es' o', ReadsList ⟨m, mode⟩ depth c es' o' ∧ Cuts m es o es' o'

def ArgumentCut (m : Nat) (mode : Quoting) (depth : Nat) (c : Cursor) (es : List Event)
    (o : Except CallError (Argument × Cursor)) : Prop :=
  ∃ es' o', ReadsArgument ⟨m, mode⟩ depth c es' o' ∧ Cuts m es o es' o'

theorem callCut_of_lt {o : Except CallError (Call × Cursor)} (h : ReadsCall cfg depth c es o)
    (hd : m < depth) : CallCut m mode depth c es o :=
  ⟨_, _, .tooDeep hd, .inr ⟨_, rfl, List.nil_prefix, (ahead_of_readsCall h).notBefore⟩⟩

/-- An error at the limit in the arguments is one of the call. -/
theorem callCut_of_arguments {o : Except CallError (Call × Cursor)} (hd : depth ≤ m)
    (ho : Opens c b e) (hl : ReadsList ⟨m, mode⟩ depth e es' (.error (.tooDeep m n)))
    (hes : es' <+: es) (hn : NotBefore n o) :
    CallCut m mode depth c (.nameRead b.name depth b.pos :: es) o :=
  ⟨_, _, .badArguments hd ho hl, .inr ⟨n, rfl, List.cons_prefix_cons.mpr ⟨rfl, hes⟩, hn⟩⟩

theorem callCut_badArguments (hd : depth ≤ m) (ho : Opens c b e)
    (hl : ListCut m mode depth e es (.error x)) :
    CallCut m mode depth c (.nameRead b.name depth b.pos :: es) (.error x) := by
  obtain ⟨es', o, hl, ⟨rfl, rfl⟩ | ⟨n, rfl, hes, hn⟩⟩ := hl
  · exact ⟨_, _, .badArguments hd ho hl, .inl ⟨rfl, rfl⟩⟩
  · exact callCut_of_arguments hd ho hl hes hn

theorem callCut_noClosing (hd : depth ≤ m) (ho : Opens c b e)
    (hl : ListCut m mode depth e es (.ok (args, f))) (hs : f.skipSpace.peek? ≠ some ')') :
    CallCut m mode depth c (.nameRead b.name depth b.pos :: es)
      (.error (.missing .closing f.skipSpace.pos)) := by
  obtain ⟨es', o, hl, ⟨rfl, rfl⟩ | ⟨n, rfl, hes, hn⟩⟩ := hl
  · exact ⟨_, _, .noClosing hd ho hl hs, .inl ⟨rfl, rfl⟩⟩
  · exact callCut_of_arguments hd ho hl hes (Nat.le_trans hn (pos_le_skipSpace f))

theorem callCut_call (hd : depth ≤ m) (ho : Opens c b e)
    (hl : ListCut m mode depth e es (.ok (args, f))) (hg : f.skipSpace.Passes [')'] g) :
    CallCut m mode depth c (.nameRead b.name depth b.pos :: es) (.ok (⟨b.name, args⟩, g)) := by
  obtain ⟨es', o, hl, ⟨rfl, rfl⟩ | ⟨n, rfl, hes, hn⟩⟩ := hl
  · exact ⟨_, _, .call hd ho hl hg, .inl ⟨rfl, rfl⟩⟩
  · have hstop : n ≤ g.pos := Nat.le_trans hn (Nat.le_trans (pos_le_skipSpace f) (Cursor.pos_le hg.le))
    exact callCut_of_arguments hd ho hl hes hstop

theorem listCut_badFirst (ha : ArgumentCut m mode depth c.skipSpace es (.error x)) :
    ListCut m mode depth c es (.error x) := by
  obtain ⟨es', o, ha, ⟨rfl, rfl⟩ | ⟨n, rfl, hes, hn⟩⟩ := ha
  · exact ⟨_, _, .badFirst ha, .inl ⟨rfl, rfl⟩⟩
  · exact ⟨_, _, .badFirst ha, .inr ⟨n, rfl, hes, hn⟩⟩

theorem listCut_last (ha : ArgumentCut m mode depth c.skipSpace es (.ok (a, d)))
    (hs : d.skipSpace.peek? ≠ some ',') : ListCut m mode depth c es (.ok ([a], d.skipSpace)) := by
  obtain ⟨es', o, ha, ⟨rfl, rfl⟩ | ⟨n, rfl, hes, hn⟩⟩ := ha
  · exact ⟨_, _, .last ha hs, .inl ⟨rfl, rfl⟩⟩
  · exact ⟨_, _, .badFirst ha, .inr ⟨n, rfl, hes, Nat.le_trans hn (pos_le_skipSpace d)⟩⟩

/-- An error at the limit in the first argument comes before all that follows the comma. -/
theorem listCut_of_first {o : Except CallError (List Argument × Cursor)} {es'' : List Event}
    (ha : ReadsArgument ⟨m, mode⟩ depth c.skipSpace es'' (.error (.tooDeep m n))) (hes : es'' <+: es)
    (hn : n ≤ d.pos) (he : d.skipSpace.Passes [','] e) (ho : NotBefore e.pos o) :
    ListCut m mode depth c (es ++ es') o := by
  have hcomma : n ≤ e.pos := Nat.le_trans hn (Nat.le_trans (pos_le_skipSpace d) (Cursor.pos_le he.le))
  exact ⟨_, _, .badFirst ha, .inr ⟨n, rfl, hes.trans (List.prefix_append es es'), ho.mono hcomma⟩⟩

theorem listCut_badRest (ha : ArgumentCut m mode depth c.skipSpace es (.ok (a, d)))
    (he : d.skipSpace.Passes [','] e)
    (hn : NotBefore e.pos (.error x : Except CallError (List Argument × Cursor)))
    (hl : ListCut m mode depth e es' (.error x)) :
    ListCut m mode depth c (es ++ es') (.error x) := by
  obtain ⟨es₁, o, ha, ⟨rfl, rfl⟩ | ⟨k, rfl, hes, hk⟩⟩ := ha
  · obtain ⟨es₂, o, hl, ⟨rfl, rfl⟩ | ⟨k, rfl, hes, hk⟩⟩ := hl
    · exact ⟨_, _, .badRest ha he hl, .inl ⟨rfl, rfl⟩⟩
    · exact ⟨_, _, .badRest ha he hl, .inr ⟨k, rfl, (List.prefix_append_right_inj es₁).mpr hes, hk⟩⟩
  · exact listCut_of_first ha hes hk he hn

theorem listCut_more (ha : ArgumentCut m mode depth c.skipSpace es (.ok (a, d)))
    (he : d.skipSpace.Passes [','] e)
    (hn : NotBefore e.pos (.ok (args, f) : Except CallError (List Argument × Cursor)))
    (hl : ListCut m mode depth e es' (.ok (args, f))) :
    ListCut m mode depth c (es ++ es') (.ok (a :: args, f)) := by
  obtain ⟨es₁, o, ha, ⟨rfl, rfl⟩ | ⟨k, rfl, hes, hk⟩⟩ := ha
  · obtain ⟨es₂, o, hl, ⟨rfl, rfl⟩ | ⟨k, rfl, hes, hk⟩⟩ := hl
    · exact ⟨_, _, .more ha he hl, .inl ⟨rfl, rfl⟩⟩
    · exact ⟨_, _, .badRest ha he hl, .inr ⟨k, rfl, (List.prefix_append_right_inj es₁).mpr hes, hk⟩⟩
  · exact listCut_of_first ha hes hk he hn

theorem argumentCut_badCall (hs : c.peek? = some '$')
    (hc : CallCut m mode (depth + 1) c es (.error x)) : ArgumentCut m mode depth c es (.error x) := by
  obtain ⟨es', o, hc, ⟨rfl, rfl⟩ | ⟨n, rfl, hes, hn⟩⟩ := hc
  · exact ⟨_, _, .badCall hs hc, .inl ⟨rfl, rfl⟩⟩
  · exact ⟨_, _, .badCall hs hc, .inr ⟨n, rfl, hes, hn⟩⟩

theorem argumentCut_call (hs : c.peek? = some '$')
    (hc : CallCut m mode (depth + 1) c es (.ok (v, d))) :
    ArgumentCut m mode depth c es (.ok (v.toArgument, d)) := by
  obtain ⟨es', o, hc, ⟨rfl, rfl⟩ | ⟨n, rfl, hes, hn⟩⟩ := hc
  · exact ⟨_, _, .call hs hc, .inl ⟨rfl, rfl⟩⟩
  · exact ⟨_, _, .badCall hs hc, .inr ⟨n, rfl, hes, hn⟩⟩

mutual

/-- With a smaller limit a reading goes the same way, up to the first call that is too deep. -/
theorem callCut_of_reads {m m' depth : Nat} {mode : Quoting} (hm : m ≤ m') {c : Cursor}
    {es : List Event} {o : Except CallError (Call × Cursor)}
    (h : ReadsCall ⟨m', mode⟩ depth c es o) : CallCut m mode depth c es o := by
  by_cases hd : depth ≤ m
  · match h with
    | .tooDeep hd' => exact absurd (Nat.le_trans hd hm) (Nat.not_le.mpr hd')
    | .noSigil _ hs => exact ⟨_, _, .noSigil hd hs, .inl ⟨rfl, rfl⟩⟩
    | .noOpening _ hb hs => exact ⟨_, _, .noOpening hd hb hs, .inl ⟨rfl, rfl⟩⟩
    | .badArguments _ ho hl => exact callCut_badArguments hd ho (listCut_of_reads hm hl)
    | .noClosing _ ho hl hs => exact callCut_noClosing hd ho (listCut_of_reads hm hl) hs
    | .call _ ho hl hg => exact callCut_call hd ho (listCut_of_reads hm hl) hg
  · exact callCut_of_lt h (Nat.lt_of_not_le hd)

theorem listCut_of_reads {m m' depth : Nat} {mode : Quoting} (hm : m ≤ m') {c : Cursor}
    {es : List Event} {o : Except CallError (List Argument × Cursor)}
    (h : ReadsList ⟨m', mode⟩ depth c es o) : ListCut m mode depth c es o := by
  match h with
  | .badFirst ha => exact listCut_badFirst (argumentCut_of_reads hm ha)
  | .last ha hs => exact listCut_last (argumentCut_of_reads hm ha) hs
  | .badRest ha he hl =>
      exact listCut_badRest (argumentCut_of_reads hm ha) he (notBefore_of_readsList hl)
        (listCut_of_reads hm hl)
  | .more ha he hl =>
      exact listCut_more (argumentCut_of_reads hm ha) he (notBefore_of_readsList hl)
        (listCut_of_reads hm hl)

theorem argumentCut_of_reads {m m' depth : Nat} {mode : Quoting} (hm : m ≤ m') {c : Cursor}
    {es : List Event} {o : Except CallError (Argument × Cursor)}
    (h : ReadsArgument ⟨m', mode⟩ depth c es o) : ArgumentCut m mode depth c es o := by
  match h with
  | .badCall hs hc => exact argumentCut_badCall hs (callCut_of_reads hm hc)
  | .call hs hc => exact argumentCut_call hs (callCut_of_reads hm hc)
  | .badLiteral hk hx => exact ⟨_, _, .badLiteral hk hx, .inl ⟨rfl, rfl⟩⟩
  | .literal hk hv ha => exact ⟨_, _, .literal hk hv ha, .inl ⟨rfl, rfl⟩⟩
  | .raw hp => exact ⟨_, _, .raw hp, .inl ⟨rfl, rfl⟩⟩

end

def Config.steps (cfg : Config) (text : String) : List Event :=
  (cfg.trace text).filter fun e => e.level == .trace

theorem steps_of_reads {text : String} {o : Except CallError (Call × Cursor)}
    (h : ReadsCall cfg 1 (.start text.toList) es o) :
    cfg.steps text = es.filter fun e => e.level == .trace := by
  rw [Config.steps, Config.trace, events_run_of_reads h, List.filter_append]
  simp

theorem leadingCall_of_depth_le {text : String} (h : cfg.leadingCall text = .ok (v, n))
    (hd : v.depth ≤ m) : (⟨m, cfg.quoting⟩ : Config).leadingCall text = .ok (v, n) := by
  obtain ⟨u, t, hp, hu, ht, -⟩ := exists_derives_of_leadingCall h
  exact leadingCall_of_derives hp hu ht hd

theorem leadingCall_of_lt_depth {text : String} (h : cfg.leadingCall text = .ok (v, n))
    (hd : m < v.depth) :
    ∃ u t k, takeBytes? text.toList n = some (u ++ t) ∧ IsSpaces u ∧
      FirstAt cfg.quoting (m + 1) t v k ∧
      (⟨m, cfg.quoting⟩ : Config).leadingCall text = .error (.tooDeep m (byteLength u + k)) := by
  obtain ⟨u, t, hp, hu, ht, -⟩ := exists_derives_of_leadingCall h
  obtain ⟨k, hfirst⟩ := exists_firstAt ht hd
  obtain ⟨rest, hs, -⟩ := takeBytes?_eq_some_iff.mp hp
  have hpasses := Cursor.passes_start (u ++ t) rest
  rw [← hs] at hpasses
  have hlevel : 1 + (m + 1) = m + 2 := by omega
  have hread : ∃ es, ReadsCall ⟨m, cfg.quoting⟩ 1 (.start text.toList) es
      (.error (.tooDeep m (0 + byteLength u + k))) :=
    callStops_of_firstAt hfirst rfl hlevel hu hpasses
  rw [Nat.zero_add] at hread
  exact ⟨u, t, k, hp, hu, hfirst, run_eq_error_iff_reads.mpr hread⟩

/-- With a smaller limit a text is read in the same way up to the first call that is too deep: a call
within the limit is read as before, a deeper one fails at its first call below the limit, and an
error stays or is replaced by that of the limit at an earlier place. -/
theorem leadingCall_of_le (mode : Quoting) {m m' : Nat} (hm : m ≤ m') (text : String) :
    (∀ v n, (⟨m', mode⟩ : Config).leadingCall text = .ok (v, n) →
      (v.depth ≤ m → (⟨m, mode⟩ : Config).leadingCall text = .ok (v, n)) ∧
      (m < v.depth → ∃ u t k, takeBytes? text.toList n = some (u ++ t) ∧ IsSpaces u ∧
        FirstAt mode (m + 1) t v k ∧
        (⟨m, mode⟩ : Config).leadingCall text = .error (.tooDeep m (byteLength u + k)))) ∧
    (∀ x, (⟨m', mode⟩ : Config).leadingCall text = .error x →
      (⟨m, mode⟩ : Config).leadingCall text = .error x ∨
        ∃ n, (⟨m, mode⟩ : Config).leadingCall text = .error (.tooDeep m n) ∧ n ≤ x.offset) ∧
    (⟨m, mode⟩ : Config).steps text <+: (⟨m', mode⟩ : Config).steps text := by
  have h := (obeys_rules ⟨m', mode⟩).1 1 (.start text.toList)
  obtain ⟨es, o, h', hcut⟩ := callCut_of_reads hm h
  refine ⟨fun v n hv => ⟨leadingCall_of_depth_le hv, leadingCall_of_lt_depth hv⟩, ?_, ?_⟩
  · intro x hx
    obtain ⟨es', hreads⟩ := run_eq_error_iff_reads.mp hx
    have hresult := readsCall_iff.mp hreads
    rw [hresult] at hcut
    rcases hcut with ⟨-, rfl⟩ | ⟨n, rfl, -, hn⟩
    · exact .inl (run_eq_error_iff_reads.mpr ⟨es, h'⟩)
    · exact .inr ⟨n, run_eq_error_iff_reads.mpr ⟨es, h'⟩, hn⟩
  · rw [steps_of_reads h, steps_of_reads h']
    rcases hcut with ⟨rfl, -⟩ | ⟨n, -, hes, -⟩
    · exact List.prefix_refl _
    · exact hes.filter _

/-- The first call at level 3 is the second one in an argument after a raw text. -/
theorem leadingCall_of_le_nested :
    let text := " $a(x, $b($c()))"
    let v : Call := ⟨"a", [.raw "x", .call "b" [.call "c" [.raw ""]]]⟩
    2 ≤ 3 ∧ Config.leadingCall ⟨3, .naive⟩ text = .ok (v, 16) ∧ 2 < v.depth ∧
      ∃ u t k, takeBytes? text.toList 16 = some (u ++ t) ∧ IsSpaces u ∧ FirstAt .naive 3 t v k ∧
        Config.leadingCall ⟨2, .naive⟩ text = .error (.tooDeep 2 (byteLength u + k)) := by
  intro text v
  have hm : 2 ≤ 3 := by decide
  have h : Config.leadingCall ⟨3, .naive⟩ text = .ok (v, 16) := by
    dsimp only [text, v]
    with_unfolding_all rfl
  have hd : 2 < v.depth := Nat.lt_succ_self 2
  exact ⟨hm, h, hd, ((leadingCall_of_le .naive hm text).1 v 16 h).2 hd⟩

end SigilCall
