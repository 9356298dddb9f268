import SigilCall.Proofs.Call.Exactness
import SigilCall.Proofs.Call.Preorder
import SigilCall.Proofs.Call.Renderable

namespace SigilCall

open Text Literal

def callText (name u body : List Char) : List Char :=
  '$' :: (name ++ (u ++ '(' :: (body ++ [')'])))

def Config.ReadsWhole (cfg : Config) (s : List Char) (v : Call) : Prop :=
  cfg.leadingCall (.ofList s) = .ok (v, byteLength s)

/-- A text stands for an argument: alone in a call, it is read as that one. -/
def Config.ReadsAlone (cfg : Config) (s : List Char) (a : Argument) : Prop :=
  ∃ v, cfg.ReadsWhole (callText [] [] s) v ∧ v.args = [a]

variable {cfg : Config} {mode : Quoting} {name name' u u' s s' t t' body body' : List Char}
  {a a' : Argument} {args : List Argument} {v : Call} {ss ss' : List (List Char)} {x y : Char}
  {n : Nat}

theorem callText_inj (hn : IsName name) (hu : IsSpaces u) (hn' : IsName name') (hu' : IsSpaces u')
    (h : callText name u body = callText name' u' body') : name = name' ∧ body = body' := by
  obtain ⟨-, hname⟩ := List.cons.inj h
  obtain ⟨heq, hspaces⟩ :=
    append_inj_of_halts hn hn' (halts_isNameChar hu) (halts_isNameChar hu') hname
  have hopening : ∀ s, Halts isSpace ('(' :: s) := fun s => halts_cons.mpr rfl
  obtain ⟨-, hbody⟩ := append_inj_of_halts hu hu' (hopening _) (hopening _) hspaces
  obtain ⟨-, hbody⟩ := List.cons.inj hbody
  exact ⟨heq, List.append_cancel_right hbody⟩

theorem readsWhole_callText_iff (hn : IsName name) (hu : IsSpaces u) :
    cfg.ReadsWhole (callText name u body) v ↔
      v.name = .ofList name ∧ DerivesList cfg.quoting body v.args ∧ v.depth ≤ cfg.maxDepth := by
  rw [Config.ReadsWhole, leadingCall_eq_ok_byteLength_iff]
  constructor
  · rintro ⟨w, t, htext, hw, ht, hd⟩
    have hsigil : Halts isSpace (w ++ t) := htext ▸ halts_cons.mpr rfl
    obtain rfl := eq_nil_of_isSpaces hw hsigil
    cases ht with
    | call hn' hu' hl =>
        obtain ⟨rfl, rfl⟩ := callText_inj hn hu hn' hu' htext
        exact ⟨rfl, hl, hd⟩
  · obtain ⟨_, args⟩ := v
    rintro ⟨rfl, hl, hd⟩
    exact ⟨[], _, rfl, isSpaces_nil, .call hn hu hl, hd⟩

namespace Argument

theorem depthList_lt_iff (h : args ≠ []) : depthList args < n ↔ ∀ a ∈ args, a.depth < n := by
  induction args with
  | nil => exact absurd rfl h
  | cons a args ih =>
      rw [depthList_cons, List.forall_mem_cons, Nat.max_lt]
      cases args with
      | nil =>
          have hpos : a.depth < n → depthList [] < n := Nat.lt_of_le_of_lt (Nat.zero_le _)
          simpa using hpos
      | cons b args => rw [ih (List.cons_ne_nil _ _)]

end Argument

theorem derivesList_of_forall₂ (hne : ss ≠ []) (h : List.Forall₂ (DerivesArgument mode) ss args) :
    DerivesList mode ([','].intercalate ss) args := by
  induction h with
  | nil => exact absurd rfl hne
  | @cons s a ss args ha h ih =>
      cases ss with
      | nil =>
          cases h
          rw [List.intercalate_singleton]
          exact .one ha
      | cons s' ss =>
          rw [List.intercalate_cons_cons, List.append_assoc]
          exact .more ha (ih (List.cons_ne_nil _ _))

theorem exists_forall₂_of_derivesList {mode : Quoting} {body : List Char} {args : List Argument}
    (h : DerivesList mode body args) :
    ∃ ss, ss ≠ [] ∧ [','].intercalate ss = body ∧
      List.Forall₂ (DerivesArgument mode) ss args := by
  match h with
  | .one (s := s) ha => exact ⟨[s], List.cons_ne_nil _ _, List.intercalate_singleton, .cons ha .nil⟩
  | .more (s := s) ha hl =>
      obtain ⟨ss, hne, rfl, h⟩ := exists_forall₂_of_derivesList hl
      refine ⟨s :: ss, List.cons_ne_nil _ _, ?_, .cons ha h⟩
      obtain ⟨s', ss, rfl⟩ := List.exists_cons_of_ne_nil hne
      rw [List.intercalate_cons_cons, List.append_assoc]
      rfl

theorem readsAlone_iff :
    cfg.ReadsAlone s a ↔ DerivesArgument cfg.quoting s a ∧ a.depth < cfg.maxDepth := by
  have hlevels : ∀ name, Call.depth ⟨name, [a]⟩ = a.depth + 1 := fun name => by simp
  simp only [Config.ReadsAlone, readsWhole_callText_iff isName_nil isSpaces_nil]
  constructor
  · rintro ⟨⟨_, _⟩, ⟨-, hl, hd⟩, rfl⟩
    rw [hlevels] at hd
    cases hl with
    | one ha => exact ⟨ha, hd⟩
    | more _ hl => exact absurd rfl (ne_nil_of_derivesList hl)
  · rintro ⟨ha, hd⟩
    refine ⟨⟨.ofList [], [a]⟩, ⟨rfl, .one ha, ?_⟩, rfl⟩
    rw [hlevels]
    exact hd

theorem forall₂_readsAlone_iff :
    List.Forall₂ cfg.ReadsAlone ss args ↔
      List.Forall₂ (DerivesArgument cfg.quoting) ss args ∧ ∀ a ∈ args, a.depth < cfg.maxDepth := by
  constructor
  · intro h
    induction h with
    | nil => exact ⟨.nil, by simp⟩
    | cons ha _ ih =>
        obtain ⟨ha, hd⟩ := readsAlone_iff.mp ha
        exact ⟨.cons ha ih.1, List.forall_mem_cons.mpr ⟨hd, ih.2⟩⟩
  · rintro ⟨h, hd⟩
    induction h with
    | nil => exact .nil
    | cons ha _ ih =>
        obtain ⟨hfirst, hrest⟩ := List.forall_mem_cons.mp hd
        exact .cons (readsAlone_iff.mpr ⟨ha, hfirst⟩) (ih hrest)

/-- Where an argument ends depends on nothing that follows its separator. -/
theorem eq_of_derivesArgument (h : DerivesArgument mode s a) (h' : DerivesArgument mode s' a')
    (hx : Cursor.isRawChar x = false) (hy : Cursor.isRawChar y = false)
    (heq : s ++ x :: t = s' ++ y :: t') : s = s' := by
  let cfg : Config := ⟨max a.depth a'.depth, mode⟩
  have hlimit : 0 ≤ cfg.maxDepth := Nat.zero_le _
  have hp := Cursor.passes_start s (x :: t)
  have hp' := Cursor.passes_start s' (y :: t')
  rw [← heq] at hp'
  obtain ⟨es, ⟨b, d⟩, hr, -, hd⟩ :=
    (argumentComplete_of_derives h rfl hlimit hp rfl hx).fits (Nat.le_max_left _ _)
  obtain ⟨es', ⟨b', d'⟩, hr', -, hd'⟩ :=
    (argumentComplete_of_derives h' rfl hlimit hp' rfl hy).fits (Nat.le_max_right _ _)
  cases hr.unique hr'
  obtain ⟨-, htail⟩ := Cursor.mk.inj (hd.symm.trans hd')
  rw [htail] at heq
  exact List.append_cancel_right heq

def listTail : List (List Char) → List Char
  | [] => [')']
  | s :: ss => ',' :: (s ++ listTail ss)

theorem listTail_eq (hne : ss ≠ []) : listTail ss = ',' :: ([','].intercalate ss ++ [')']) := by
  induction ss with
  | nil => exact absurd rfl hne
  | cons s ss ih =>
      cases ss with
      | nil => rw [List.intercalate_singleton, listTail, listTail]
      | cons s' ss =>
          rw [listTail, ih (List.cons_ne_nil _ _), List.intercalate_cons_cons]
          simp only [List.append_assoc, List.cons_append, List.nil_append]

theorem exists_listTail_eq (ss : List (List Char)) :
    ∃ x t, listTail ss = x :: t ∧ Cursor.isRawChar x = false := by
  cases ss with
  | nil => exact ⟨_, _, rfl, rfl⟩
  | cons s ss => exact ⟨_, _, rfl, rfl⟩

theorem listTail_inj (h : ∀ s ∈ ss, ∃ a, DerivesArgument mode s a)
    (h' : ∀ s ∈ ss', ∃ a, DerivesArgument mode s a) (heq : listTail ss = listTail ss') :
    ss = ss' := by
  induction ss generalizing ss' with
  | nil =>
      cases ss' with
      | nil => rfl
      | cons s' ss' => cases heq
  | cons s ss ih =>
      cases ss' with
      | nil => cases heq
      | cons s' ss' =>
          obtain ⟨⟨a, ha⟩, h⟩ := List.forall_mem_cons.mp h
          obtain ⟨⟨a', ha'⟩, h'⟩ := List.forall_mem_cons.mp h'
          obtain ⟨-, htexts⟩ := List.cons.inj heq
          obtain ⟨x, t, ht, hx⟩ := exists_listTail_eq ss
          obtain ⟨y, t', ht', hy⟩ := exists_listTail_eq ss'
          have hfirst : s = s' := eq_of_derivesArgument ha ha' hx hy (by rw [← ht, htexts, ht'])
          rw [hfirst] at htexts ⊢
          rw [ih h h' (List.append_cancel_left htexts)]

theorem intercalate_inj (hne : ss ≠ []) (hne' : ss' ≠ [])
    (h : ∀ s ∈ ss, ∃ a, DerivesArgument mode s a) (h' : ∀ s ∈ ss', ∃ a, DerivesArgument mode s a)
    (heq : [','].intercalate ss = [','].intercalate ss') : ss = ss' :=
  listTail_inj h h' (by rw [listTail_eq hne, listTail_eq hne', heq])

theorem exists_of_forall₂ {α β : Type} {R : α → β → Prop} {l : List α} {m : List β}
    (h : List.Forall₂ R l m) : ∀ z ∈ l, ∃ w, R z w := by
  intro z hz
  obtain ⟨w, -, hr⟩ := exists_mem_of_forall₂ h.flip z hz
  exact ⟨w, hr⟩

/-- Texts that stand for arguments are put together with commas in a call, and the arguments are
those of the texts. The text between the parentheses of any call is of this form, for one list of
texts only. -/
theorem readsWhole_callText (cfg : Config) (hn : IsName name) (hu : IsSpaces u) :
    (∀ ss args, ss ≠ [] → List.Forall₂ cfg.ReadsAlone ss args →
      cfg.ReadsWhole (callText name u ([','].intercalate ss)) ⟨.ofList name, args⟩) ∧
    ∀ body v, cfg.ReadsWhole (callText name u body) v →
      v.name = .ofList name ∧
      ∃ ss, ss ≠ [] ∧ [','].intercalate ss = body ∧ List.Forall₂ cfg.ReadsAlone ss v.args ∧
        ∀ ss', ss' ≠ [] → [','].intercalate ss' = body →
          (∀ s ∈ ss', ∃ a, cfg.ReadsAlone s a) → ss' = ss := by
  refine ⟨fun ss args hne h => ?_, fun body v h => ?_⟩
  · obtain ⟨htexts, hdepths⟩ := forall₂_readsAlone_iff.mp h
    have hlist := derivesList_of_forall₂ hne htexts
    have hdepth : Argument.depthList args < cfg.maxDepth :=
      (Argument.depthList_lt_iff (ne_nil_of_derivesList hlist)).mpr hdepths
    exact (readsWhole_callText_iff hn hu).mpr ⟨rfl, hlist, hdepth⟩
  · obtain ⟨hname, hlist, hdepth⟩ := (readsWhole_callText_iff hn hu).mp h
    have hdepths := (Argument.depthList_lt_iff (ne_nil_of_derivesList hlist)).mp hdepth
    obtain ⟨ss, hne, rfl, htexts⟩ := exists_forall₂_of_derivesList hlist
    refine ⟨hname, ss, hne, rfl, forall₂_readsAlone_iff.mpr ⟨htexts, hdepths⟩, ?_⟩
    intro ss' hne' hbody hreads
    have hderives : ∀ s ∈ ss', ∃ a, DerivesArgument cfg.quoting s a := by
      intro s hs
      obtain ⟨a, ha⟩ := hreads s hs
      exact ⟨a, (readsAlone_iff.mp ha).1⟩
    exact intercalate_inj hne' hne hderives (exists_of_forall₂ htexts) hbody

/-- A literal with a comma in it, a raw text between blanks, and a call with a list of its own. -/
theorem readsWhole_callText_three :
    let cfg : Config := ⟨2, .naive⟩
    let ss := ["[null,[]]".toList, " x ".toList, "$g(a,b)".toList]
    let args : List Argument :=
      [.array [.null, .array []], .raw "x", .call "g" [.raw "a", .raw "b"]]
    IsName "f".toList ∧ IsSpaces " ".toList ∧ ss ≠ [] ∧ List.Forall₂ cfg.ReadsAlone ss args ∧
      cfg.ReadsWhole (callText "f".toList " ".toList ([','].intercalate ss)) ⟨"f", args⟩ ∧
      ∀ ss', ss' ≠ [] → [','].intercalate ss' = [','].intercalate ss →
        (∀ s ∈ ss', ∃ a, cfg.ReadsAlone s a) → ss' = ss := by
  intro cfg ss args
  have hn : IsName "f".toList := by simp [IsName, isNameChar]
  have hu : IsSpaces " ".toList := by simp [IsSpaces, isSpace]
  have hne : ss ≠ [] := List.cons_ne_nil _ _
  have hss : List.Forall₂ cfg.ReadsAlone ss args := by
    refine .cons ⟨⟨"", _⟩, ?_, rfl⟩ (.cons ⟨⟨"", _⟩, ?_, rfl⟩ (.cons ⟨⟨"", _⟩, ?_, rfl⟩ .nil))
    all_goals
      rw [Config.ReadsWhole]
      dsimp only [cfg]
      with_unfolding_all rfl
  have hwhole := (readsWhole_callText cfg hn hu).1 ss args hne hss
  obtain ⟨-, ss₀, -, -, -, honly⟩ := (readsWhole_callText cfg hn hu).2 _ _ hwhole
  have hown : ss = ss₀ := honly ss hne rfl (exists_of_forall₂ hss)
  exact ⟨hn, hu, hne, hss, hwhole, fun ss' hne' hbody h => hown ▸ honly ss' hne' hbody h⟩

end SigilCall
