import Monkey.Token.Basic
import Monkey.Text.Blank

namespace Monkey

/-- What is left of a text, and the place where it begins. -/
structure Cursor where
  rest : List Char
  position : Position
deriving DecidableEq

namespace Cursor

def ofText (s : String) : Cursor :=
  ⟨s.toList, .first⟩

/-- Moves past the first `n` characters, or to the end if there are fewer. -/
def drop : Nat → Cursor → Cursor
  | 0, c => c
  | _ + 1, ⟨[], p⟩ => ⟨[], p⟩
  | n + 1, ⟨ch :: rest, p⟩ => drop n ⟨rest, p.after ch⟩

theorem rest_drop (n : Nat) (c : Cursor) : (drop n c).rest = c.rest.drop n := by
  fun_induction drop n c with simp_all

theorem position_drop (n : Nat) (c : Cursor) :
    (drop n c).position = c.position.afterAll (c.rest.take n) := by
  fun_induction drop n c with simp_all

end Cursor

/-- Between two tokens a text holds blanks, line comments, and block comments inside each other. -/
inductive Gap
  | blank
  | line
  | block (outer : Nat)
deriving DecidableEq

namespace Gap

/-- Moves past all that belongs to no token. A line comment ends with its line; of a block comment, the
marks `/*` and `*/` are read from left to right and never share a character. -/
def skip : Gap → List Char → Position → Cursor
  | _, [], p => ⟨[], p⟩
  | blank, '/' :: '/' :: cs, p => skip line cs ((p.after '/').after '/')
  | blank, '/' :: '*' :: cs, p => skip (block 0) cs ((p.after '/').after '*')
  | blank, c :: cs, p => if Text.isBlank c then skip blank cs (p.after c) else ⟨c :: cs, p⟩
  | line, c :: cs, p => skip (if c = '\n' then blank else line) cs (p.after c)
  | block n, '/' :: '*' :: cs, p => skip (block (n + 1)) cs ((p.after '/').after '*')
  | block 0, '*' :: '/' :: cs, p => skip blank cs ((p.after '*').after '/')
  | block (n + 1), '*' :: '/' :: cs, p => skip (block n) cs ((p.after '*').after '/')
  | block n, c :: cs, p => skip (block n) cs (p.after c)

theorem skip_eq_drop (g : Gap) (cs : List Char) (p : Position) :
    ∃ n, skip g cs p = Cursor.drop n ⟨cs, p⟩ := by
  fun_induction skip g cs p with
  | case1 | case5 => exact ⟨0, rfl⟩
  | case4 _ _ _ _ _ _ ih | case6 _ _ _ ih | case10 _ _ _ _ _ _ _ ih =>
    obtain ⟨n, h⟩ := ih
    exact ⟨n + 1, h⟩
  | case2 _ _ ih | case3 _ _ ih | case7 _ _ _ ih | case8 _ _ ih | case9 _ _ _ ih =>
    obtain ⟨n, h⟩ := ih
    exact ⟨n + 2, h⟩

theorem skip_of_blank {c : Char} (hc : Text.isBlank c) (cs : List Char) (p : Position) :
    skip .blank (c :: cs) p = skip .blank cs (p.after c) := by
  have hslash : c ≠ '/' := by
    rintro rfl
    exact absurd hc (by decide)
  rw [skip]
  · rw [if_pos hc]
  · exact fun _ h _ => hslash h
  · exact fun _ h _ => hslash h

theorem skip_of_ne {c : Char} {cs : List Char} (hc : Text.isBlank c = false)
    (hcs : c = '/' → cs.head? ≠ some '/' ∧ cs.head? ≠ some '*') (p : Position) :
    skip .blank (c :: cs) p = ⟨c :: cs, p⟩ := by
  rw [skip]
  · rw [hc]
    rfl
  · intro rest hslash hrest
    exact (hcs hslash).1 (by rw [hrest]; rfl)
  · intro rest hslash hrest
    exact (hcs hslash).2 (by rw [hrest]; rfl)

end Gap

/-- Moves to the first character of the next token. -/
def Cursor.skipGap (c : Cursor) : Cursor :=
  Gap.skip .blank c.rest c.position

theorem Cursor.length_skipGap_le (c : Cursor) : c.skipGap.rest.length ≤ c.rest.length := by
  obtain ⟨n, h⟩ := Gap.skip_eq_drop .blank c.rest c.position
  simp [skipGap, h, rest_drop]

end Monkey
