namespace Monkey.Text

/-- Words are written in the Latin letters of ASCII and the underscore. -/
def isLetter (c : Char) : Bool :=
  ('a' ≤ c && c ≤ 'z') || ('A' ≤ c && c ≤ 'Z') || c = '_'

def isDigit (c : Char) : Bool :=
  '0' ≤ c && c ≤ '9'

/-- What may follow the first letter of a word. -/
def isWordChar (c : Char) : Bool :=
  isLetter c || isDigit c

theorem isDigit_iff (c : Char) : isDigit c ↔ 48 ≤ c.toNat ∧ c.toNat ≤ 57 := by
  rw [isDigit, Bool.and_eq_true, decide_eq_true_iff, decide_eq_true_iff]
  exact Iff.rfl

theorem isLetter_iff (c : Char) :
    isLetter c ↔
      97 ≤ c.toNat ∧ c.toNat ≤ 122 ∨ 65 ≤ c.toNat ∧ c.toNat ≤ 90 ∨ c.toNat = 95 := by
  have hlower : ('a' ≤ c && c ≤ 'z') ↔ 97 ≤ c.toNat ∧ c.toNat ≤ 122 := by
    rw [Bool.and_eq_true, decide_eq_true_iff, decide_eq_true_iff]
    exact Iff.rfl
  have hupper : ('A' ≤ c && c ≤ 'Z') ↔ 65 ≤ c.toNat ∧ c.toNat ≤ 90 := by
    rw [Bool.and_eq_true, decide_eq_true_iff, decide_eq_true_iff]
    exact Iff.rfl
  have hline : decide (c = '_') ↔ c.toNat = 95 := by
    rw [decide_eq_true_iff]
    exact Char.toNat_inj.symm
  rw [isLetter, Bool.or_eq_true, Bool.or_eq_true, hlower, hupper, hline, or_assoc]

theorem isWordChar_iff (c : Char) :
    isWordChar c ↔
      (97 ≤ c.toNat ∧ c.toNat ≤ 122 ∨ 65 ≤ c.toNat ∧ c.toNat ≤ 90 ∨ c.toNat = 95) ∨
        48 ≤ c.toNat ∧ c.toNat ≤ 57 := by
  rw [isWordChar, Bool.or_eq_true, isLetter_iff, isDigit_iff]

end Monkey.Text
