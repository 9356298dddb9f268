import SigilCall.Proofs.Runs

namespace SigilCall

open Text Literal

variable {α : Type} {cfg : Config} {depth n m : Nat} {c d b e f : Cursor} {a : Argument}
  {args : List Argument} {es : List Event}

def NotBefore (n : Nat) : Except CallError (α × Cursor) → Prop
  | .error x => n ≤ x.offset
  | .ok (_, f) => n ≤ f.pos

theorem NotBefore.mono {o : Except CallError (α × Cursor)} (h : NotBefore m o) (hn : n ≤ m) :
    NotBefore n o := by
  match o with
  | .error x => exact Nat.le_trans hn h
  | .ok (_, f) => exact Nat.le_trans hn h

theorem pos_le_skipSpace (c : Cursor) : c.pos ≤ c.skipSpace.pos := Cursor.pos_le c.le_skipSpace

theorem le_skipName (b : Cursor) : b ≤ b.skipName :=
  Cursor.le_trans (b.le_skipWhile isNameChar) (Cursor.le_skipSpace _)

theorem Opens.unique {b' e' : Cursor} (h : Opens c b e) (h' : Opens c b' e') : e = e' := by
  obtain rfl := h.sigil.unique h'.sigil
  exact h.parenthesis.unique h'.parenthesis

theorem Opens.skipSpace_le (h : Opens c b e) : c.skipSpace ≤ e :=
  Cursor.le_trans h.sigil.le (Cursor.le_trans (le_skipName b) h.parenthesis.le)

theorem Opens.le (h : Opens c b e) : c ≤ e := Cursor.le_trans c.le_skipSpace h.skipSpace_le

def Ahead (c : Cursor) : Except CallError (α × Cursor) → Prop
  | .error x => ∃ d, c ≤ d ∧ d.pos = x.offset
  | .ok (_, f) => c ≤ f

theorem Ahead.mono {o : Except CallError (α × Cursor)} (h : Ahead d o) (hc : c ≤ d) :
    Ahead c o := by
  match o with
  | .error x =>
      obtain ⟨e, hd, he⟩ := h
      exact ⟨e, Cursor.le_trans hc hd, he⟩
  | .ok (_, f) => exact Cursor.le_trans hc h

theorem Ahead.notBefore {o : Except CallError (α × Cursor)} (h : Ahead c o) :
    NotBefore c.pos o := by
  match o with
  | .error x =>
      obtain ⟨d, hd, hn⟩ := h
      exact Nat.le_trans (Cursor.pos_le hd) (Nat.le_of_eq hn)
  | .ok (_, f) => exact Cursor.pos_le h

mutual

/-- A reading does not go back, and that of a call starts after blanks. -/
theorem ahead_of_readsCall {cfg : Config} {depth : Nat} {c : Cursor} {es : List Event}
    {o : Except CallError (Call × Cursor)} (h : ReadsCall cfg depth c es o) :
    Ahead c.skipSpace o := by
  match h with
  | .tooDeep _ | .noSigil _ _ => exact ⟨_, Cursor.le_refl _, rfl⟩
  | .noOpening _ hb _ => exact ⟨_, Cursor.le_trans hb.le (le_skipName _), rfl⟩
  | .badArguments _ ho hl => exact (ahead_of_readsList hl).mono ho.skipSpace_le
  | .noClosing _ ho hl _ =>
      exact ⟨_, Cursor.le_trans ((ahead_of_readsList hl).mono ho.skipSpace_le)
        (Cursor.le_skipSpace _), rfl⟩
  | .call _ ho hl hg =>
      exact Cursor.le_trans ((ahead_of_readsList hl).mono ho.skipSpace_le)
        (Cursor.le_trans (Cursor.le_skipSpace _) hg.le)

theorem ahead_of_readsList {cfg : Config} {depth : Nat} {c : Cursor} {es : List Event}
    {o : Except CallError (List Argument × Cursor)} (h : ReadsList cfg depth c es o) :
    Ahead c o := by
  match h with
  | .badFirst ha => exact (ahead_of_readsArgument ha).mono c.le_skipSpace
  | .last ha _ =>
      exact Cursor.le_trans ((ahead_of_readsArgument ha).mono c.le_skipSpace) (Cursor.le_skipSpace _)
  | .badRest ha he hl | .more ha he hl =>
      exact (ahead_of_readsList hl).mono (Cursor.le_trans
        ((ahead_of_readsArgument ha).mono c.le_skipSpace)
        (Cursor.le_trans (Cursor.le_skipSpace _) he.le))

theorem ahead_of_readsArgument {cfg : Config} {depth : Nat} {c : Cursor} {es : List Event}
    {o : Except CallError (Argument × Cursor)} (h : ReadsArgument cfg depth c es o) :
    Ahead c o := by
  match h with
  | .badCall _ hc => exact (ahead_of_readsCall hc).mono c.le_skipSpace
  | .call _ hc => exact Cursor.le_trans c.le_skipSpace (ahead_of_readsCall hc)
  | .badLiteral _ _ => exact ⟨c, c.le_refl, rfl⟩
  | .literal _ _ _ => exact c.le_skipSpan _ _
  | .raw _ => exact c.le_skipRaw

end

theorem notBefore_of_readsList {o : Except CallError (List Argument × Cursor)}
    (h : ReadsList cfg depth c es o) : NotBefore c.pos o := (ahead_of_readsList h).notBefore

theorem notBefore_of_readsArgument {o : Except CallError (Argument × Cursor)}
    (h : ReadsArgument cfg depth c es o) : NotBefore c.pos o := (ahead_of_readsArgument h).notBefore

theorem le_of_readsArgument (h : ReadsArgument cfg depth c es (.ok (a, d))) : c ≤ d :=
  ahead_of_readsArgument h

theorem le_of_comma (ha : ReadsArgument cfg depth c.skipSpace es (.ok (a, d)))
    (he : d.skipSpace.Passes [','] e) : c ≤ e :=
  Cursor.le_trans (Cursor.le_trans c.le_skipSpace (le_of_readsArgument ha))
    (Cursor.le_trans d.le_skipSpace he.le)

theorem exists_readsCall {o : Except CallError (List Argument × Cursor)}
    (hd : depth ≤ cfg.maxDepth) (ho : Opens c b e) (hl : ReadsList cfg depth e es o)
    (h : NotBefore n o) : ∃ es' o', ReadsCall cfg depth c es' o' ∧ NotBefore n o' := by
  match o with
  | .error x => exact ⟨_, _, .badArguments hd ho hl, h⟩
  | .ok (args, f) =>
      have hn : n ≤ f.skipSpace.pos := Nat.le_trans h (pos_le_skipSpace f)
      cases hg : f.skipSpace.accept? ')' with
      | none => exact ⟨_, _, .noClosing hd ho hl (Cursor.accept?_eq_none_iff.mp hg), hn⟩
      | some g =>
          have hp := Cursor.accept?_eq_some_iff.mp hg
          exact ⟨_, _, .call hd ho hl hp, Nat.le_trans hn (Cursor.pos_le hp.le)⟩

theorem exists_readsList_rest {o : Except CallError (List Argument × Cursor)} {es' : List Event}
    (ha : ReadsArgument cfg depth c.skipSpace es (.ok (a, d))) (he : d.skipSpace.Passes [','] e)
    (hl : ReadsList cfg depth e es' o) (h : NotBefore n o) :
    ∃ es'' o', ReadsList cfg depth c es'' o' ∧ NotBefore n o' := by
  match o with
  | .error x => exact ⟨_, _, .badRest ha he hl, h⟩
  | .ok (args, f) => exact ⟨_, _, .more ha he hl, h⟩

theorem exists_readsList_first {o : Except CallError (Argument × Cursor)}
    (ha : ReadsArgument cfg depth c.skipSpace es o) (h : NotBefore n o) :
    ∃ es' o', ReadsList cfg depth c es' o' ∧ NotBefore n o' := by
  match o with
  | .error x => exact ⟨_, _, .badFirst ha, h⟩
  | .ok (a, d) =>
      have hn : n ≤ d.skipSpace.pos := Nat.le_trans h (pos_le_skipSpace d)
      cases he : d.skipSpace.accept? ',' with
      | none => exact ⟨_, _, .last ha (Cursor.accept?_eq_none_iff.mp he), hn⟩
      | some e =>
          have hp := Cursor.accept?_eq_some_iff.mp he
          have hl := (obeys_rules cfg).2.1 depth e
          exact exists_readsList_rest ha hp hl
            ((notBefore_of_readsList hl).mono (Nat.le_trans hn (Cursor.pos_le hp.le)))

end SigilCall
