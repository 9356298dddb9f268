namespace SigilCall.Text

/-- The length of a text in bytes of its UTF-8 form, the unit of every offset here. -/
def byteLength : List Char → Nat
  | [] => 0
  | c :: s => c.utf8Size + byteLength s

@[simp] theorem byteLength_nil : byteLength [] = 0 := rfl

@[simp] theorem byteLength_cons (c : Char) (s : List Char) :
    byteLength (c :: s) = c.utf8Size + byteLength s := rfl

@[simp] theorem byteLength_append (s t : List Char) :
    byteLength (s ++ t) = byteLength s + byteLength t := by
  induction s with
  | nil => simp
  | cons c s ih => simp [ih, Nat.add_assoc]

theorem length_le_byteLength (s : List Char) : s.length ≤ byteLength s := by
  induction s with
  | nil => exact Nat.le_refl 0
  | cons c s ih =>
      have := c.utf8Size_pos
      simp only [List.length_cons, byteLength_cons]
      omega

def dropBytes? : List Char → Nat → Option (List Char)
  | s, 0 => some s
  | [], _ + 1 => none
  | c :: s, n + 1 => if c.utf8Size ≤ n + 1 then dropBytes? s (n + 1 - c.utf8Size) else none

def takeBytes? : List Char → Nat → Option (List Char)
  | _, 0 => some []
  | [], _ + 1 => none
  | c :: s, n + 1 =>
      if c.utf8Size ≤ n + 1 then (takeBytes? s (n + 1 - c.utf8Size)).map (c :: ·) else none

/-- The text between two offsets. There is none if they are out of order, past the end, or inside
a character. -/
def slice? (s : List Char) (start stop : Nat) : Option (List Char) :=
  if start ≤ stop then (dropBytes? s start).bind (takeBytes? · (stop - start)) else none

@[simp] theorem dropBytes?_byteLength (s t : List Char) : dropBytes? (s ++ t) (byteLength s) = some t := by
  induction s with
  | nil => cases t <;> rfl
  | cons c s ih =>
      obtain ⟨n, hn⟩ := Nat.exists_eq_add_one_of_ne_zero (Nat.ne_of_gt c.utf8Size_pos)
      have h : byteLength (c :: s) = (n + byteLength s) + 1 := by simp [hn]; omega
      rw [List.cons_append, h, dropBytes?, if_pos (by omega), ← ih]
      congr 1
      omega

@[simp] theorem takeBytes?_byteLength (s t : List Char) : takeBytes? (s ++ t) (byteLength s) = some s := by
  induction s with
  | nil => cases t <;> rfl
  | cons c s ih =>
      obtain ⟨n, hn⟩ := Nat.exists_eq_add_one_of_ne_zero (Nat.ne_of_gt c.utf8Size_pos)
      have h : byteLength (c :: s) = (n + byteLength s) + 1 := by simp [hn]; omega
      have hs : n + byteLength s + 1 - c.utf8Size = byteLength s := by omega
      rw [List.cons_append, h, takeBytes?, if_pos (by omega), hs, ih, Option.map_some]

@[simp] theorem slice?_append (s t u : List Char) :
    slice? (s ++ (t ++ u)) (byteLength s) (byteLength s + byteLength t) = some t := by
  rw [slice?, if_pos (Nat.le_add_right _ _), dropBytes?_byteLength, Option.bind_some,
    Nat.add_sub_cancel_left, takeBytes?_byteLength]

end SigilCall.Text
