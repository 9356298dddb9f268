namespace SigilCall.Text

/-- Blanks between the parts of a call: Unicode white space without U+0085, and U+FEFF. -/
def isSpace (c : Char) : Bool :=
  let n := c.toNat
  (0x9 ≤ n && n ≤ 0xd) || n == 0x20 || n == 0xa0 || n == 0x1680 || (0x2000 ≤ n && n ≤ 0x200a) ||
    n == 0x2028 || n == 0x2029 || n == 0x202f || n == 0x205f || n == 0x3000 || n == 0xfeff

def isNameChar (c : Char) : Bool := c.isAlphanum || c == '_'

def trim (s : List Char) : List Char :=
  ((s.dropWhile isSpace).reverse.dropWhile isSpace).reverse

theorem isSpace_eq_false_of_isNameChar {c : Char} (h : isNameChar c = true) :
    isSpace c = false := by
  have hclass : (c.isUpper || c.isLower || c.isDigit || c == '_') = true := h
  simp only [Bool.or_eq_true, beq_iff_eq] at hclass
  rcases hclass with ((h | h) | h) | rfl
  · have hrange : 65 ≤ c.toNat ∧ c.toNat ≤ 90 := of_decide_eq_true h
    simp [isSpace]
    omega
  · obtain ⟨h₁, h₂⟩ := Bool.and_eq_true_iff.mp h
    have hrange : 97 ≤ c.toNat ∧ c.toNat ≤ 122 := ⟨of_decide_eq_true h₁, of_decide_eq_true h₂⟩
    simp [isSpace]
    omega
  · obtain ⟨h₁, h₂⟩ := Bool.and_eq_true_iff.mp h
    have hrange : 48 ≤ c.toNat ∧ c.toNat ≤ 57 := ⟨of_decide_eq_true h₁, of_decide_eq_true h₂⟩
    simp [isSpace]
    omega
  · decide

end SigilCall.Text
