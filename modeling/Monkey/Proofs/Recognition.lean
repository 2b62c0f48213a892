import Mathlib
import Monkey.Parse.Source
import Monkey.Proofs.Completeness

namespace Monkey.Parse

theorem program_yields_iff (ts : List Token) (stmts : List Stmt) :
    (program ts).log = [] ∧ (program ts).value = stmts ↔ Sentences ts stmts := by
  constructor
  · intro h
    exact (program_sound ts ⟨h.2, rfl, h.1⟩).2
  · intro h
    have hy := h.program_yields
    exact ⟨hy.2.2, hy.1⟩

/-- Tokens spell at most one program. -/
theorem Sentences.unique {ts : List Token} {stmts stmts' : List Stmt} (h : Sentences ts stmts)
    (h' : Sentences ts stmts') : stmts = stmts' := by
  rw [← h.program_yields.1, ← h'.program_yields.1]

theorem tokensOf_map_ok (ts : List Token) : tokensOf (ts.map .ok) = ts := by
  induction ts with
  | nil => rfl
  | cons t ts ih => rw [List.map_cons, tokensOf, ih]

theorem lexicalFaults_map_ok (ahead : Nat) (ts : List Token) :
    lexicalFaults ahead (ts.map .ok) = [] := by
  induction ts generalizing ahead with
  | nil => rfl
  | cons t ts ih => rw [List.map_cons, lexicalFaults, ih]

theorem ofItems_map_ok (ts : List Token) :
    ofItems (ts.map .ok) = ⟨(program ts).value, (program ts).log.map (·.diagnostic)⟩ := by
  simp only [ofItems, lexicalFaults_map_ok, inOrder, List.merge_right]
  rw [tokensOf_map_ok]

end Parse

open Parse

/-- A text without lexical errors is read as exactly the program that its tokens spell. -/
theorem parse_iff_sentences (source : String) (ts : List Token) (h : itemsOf source = ts.map .ok)
    (stmts : List Stmt) :
    ((parse source).diagnostics = [] ∧ (parse source).program = stmts ↔ Sentences ts stmts) ∧
      ∀ other, Sentences ts stmts → Sentences ts other → other = stmts := by
  refine ⟨?_, fun other hs ho => ho.unique hs⟩
  rw [parse, h, ofItems_map_ok, List.map_eq_nil_iff]
  exact program_yields_iff ts stmts

/-- A statement without a semicolon ends where nothing carries it on: here before the name `a`, while the
parenthesis in the next line still belongs to the call. -/
theorem parse_iff_sentences_of_call :
    let ts : List Token := [⟨.letWord, "let", ⟨1, 1⟩, ⟨1, 4⟩⟩, ⟨.ident, "a", ⟨1, 5⟩, ⟨1, 6⟩⟩,
      ⟨.assign, "=", ⟨1, 7⟩, ⟨1, 8⟩⟩, ⟨.minus, "-", ⟨1, 9⟩, ⟨1, 10⟩⟩, ⟨.int, "1", ⟨1, 10⟩, ⟨1, 11⟩⟩,
      ⟨.ident, "a", ⟨1, 12⟩, ⟨1, 13⟩⟩, ⟨.parenL, "(", ⟨2, 1⟩, ⟨2, 2⟩⟩, ⟨.parenR, ")", ⟨2, 2⟩, ⟨2, 3⟩⟩]
    let stmts : List Stmt := [.bind ⟨"a", ⟨1, 5⟩, ⟨1, 6⟩⟩ (.unary ⟨.minus, "-", ⟨1, 9⟩, ⟨1, 10⟩⟩ (.int 1)),
      .expr (.call (.ident ⟨"a", ⟨1, 12⟩, ⟨1, 13⟩⟩) [])]
    itemsOf "let a = -1 a\n()" = ts.map .ok ∧
      ((parse "let a = -1 a\n()").diagnostics = [] ∧ (parse "let a = -1 a\n()").program = stmts) ∧
      Sentences ts stmts := by
  intro ts stmts
  have h : itemsOf "let a = -1 a\n()" = ts.map .ok := by cbv
  have hd : (parse "let a = -1 a\n()").diagnostics = [] := by cbv
  have hp : (parse "let a = -1 a\n()").program = stmts := by cbv
  exact ⟨h, ⟨hd, hp⟩, (parse_iff_sentences _ ts h stmts).1.1 ⟨hd, hp⟩⟩

end Monkey
