import Monkey.Parse.Level
import Monkey.Parse.Reading
import Monkey.Program.Basic

namespace Monkey.Parse

/-- The largest number that an integer literal can stand for. -/
def maxNumeral : Nat :=
  0x7fffffffffffffff

/-- The names after a parameter, up to the closing parenthesis. -/
def moreParameters (ts : List Token) : Attempt (List Ident) ts.length :=
  if front ts = .comma then
    expect .comma ts fun _ ts₁ _ => expect .ident ts₁ fun name ts₂ _ =>
      (moreParameters ts₂).map (Ident.ofToken name :: ·)
  else expect .parenR ts fun _ rest _ => .done [] rest
termination_by ts.length

/-- The names between the parentheses of a function, up to the closing one. -/
def parameters (ts : List Token) : Attempt (List Ident) ts.length :=
  if front ts = .parenR then .doneWith [] ts
  else expect .ident ts fun name rest _ => (moreParameters rest).map (Ident.ofToken name :: ·)

/-- A statement may end with a semicolon. -/
def ended (s : Stmt) (ts : List Token) : Attempt Stmt ts.length :=
  if front ts = .semicolon then .doneWith s ts else .done s ts

mutual

/-- An expression in which every operator outside of brackets holds tighter than `level`. -/
def expression (level : Level) (ts : List Token) : Attempt Expr (ts.length - 1) :=
  (operand ts).andThen fun left rest _ => operators level left rest
termination_by (ts.length, 1)
decreasing_by all_goals (simp only [Prod.lex_def, true_and] at *; omega)

/-- What stands to the left of the first operator. -/
def operand (ts : List Token) : Attempt Expr (ts.length - 1) :=
  match ts with
  | [] => .refused (.noOperand .eof) []
  | t :: ts =>
    match t.kind with
    | .ident => (Attempt.done (.ident (.ofToken t)) ts).past
    | .int =>
      let n := Text.value t.text.toList
      if n ≤ maxNumeral then (Attempt.done (.int (.ofNat n)) ts).past
      else .refused (.numberTooLarge t.text) (t :: ts)
    | .string => (Attempt.done (.string t.text) ts).past
    | .trueWord => (Attempt.done (.bool true) ts).past
    | .falseWord => (Attempt.done (.bool false) ts).past
    | .bang | .minus => Attempt.past <|
      (expression .unary ts).andThen fun right rest _ => .done (.unary t right) rest
    | .parenL => Attempt.past <|
      (expression .lowest ts).andThen fun e ts₁ _ => expect .parenR ts₁ fun _ rest _ => .done e rest
    | .ifWord => Attempt.past <|
      expect .parenL ts fun _ ts₁ _ => (expression .lowest ts₁).andThen fun test ts₂ _ =>
        expect .parenR ts₂ fun _ ts₃ _ => expect .braceL ts₃ fun _ ts₄ _ =>
          (block ts₄).andTry fun yes ts₅ _ =>
            if front ts₅ = .elseWord then
              expect .elseWord ts₅ fun _ ts₆ _ => expect .braceL ts₆ fun _ ts₇ _ =>
                (block ts₇).andTry fun no rest _ => .done (.cond test yes (some no)) rest
            else .done (.cond test yes none) ts₅
    | .fnWord => Attempt.past <|
      expect .parenL ts fun _ ts₁ _ => (parameters ts₁).andThen fun params ts₂ _ =>
        expect .braceL ts₂ fun _ ts₃ _ => (block ts₃).andTry fun body rest _ =>
          .done (.function params body) rest
    | .bracketL => ((elements .bracketR ts).map .array).past
    | .braceL => ((entries ts).map .hash).past
    | kind => .refused (.noOperand kind) (t :: ts)
termination_by (ts.length, 0)
decreasing_by all_goals (simp only [Prod.lex_def, List.length_cons] at *; omega)

/-- Joins the operators that follow an operand to it, as long as they hold tighter than `level`. -/
def operators (level : Level) (left : Expr) (ts : List Token) : Attempt Expr ts.length :=
  if level.rank < (Level.ofKind (front ts)).rank then
    expect (front ts) ts fun op ts₁ _ =>
      match op.kind with
      | .parenL => (elements .parenR ts₁).andThen fun args rest _ =>
        operators level (.call left args) rest
      | .bracketL => (expression .lowest ts₁).andThen fun index ts₂ _ =>
        expect .bracketR ts₂ fun _ rest _ => operators level (.index left index) rest
      | kind => (expression (Level.ofKind kind) ts₁).andThen fun right rest _ =>
        operators level (.binary left op right) rest
  else .done left ts
termination_by (ts.length, 0)
decreasing_by all_goals (simp only [Prod.lex_def] at *; omega)

/-- The expressions between two brackets, up to the closing one. -/
def elements (close : Kind) (ts : List Token) : Attempt (List Expr) ts.length :=
  if front ts = close then .doneWith [] ts
  else (expression .lowest ts).andThen fun e rest _ => (moreElements close rest).map (e :: ·)
termination_by (ts.length, 2)
decreasing_by all_goals (simp only [Prod.lex_def, true_and] at *; omega)

/-- The expressions after an element, up to the closing bracket. -/
def moreElements (close : Kind) (ts : List Token) : Attempt (List Expr) ts.length :=
  if front ts = .comma then
    expect .comma ts fun _ ts₁ _ => (expression .lowest ts₁).andThen fun e rest _ =>
      (moreElements close rest).map (e :: ·)
  else expect close ts fun _ rest _ => .done [] rest
termination_by (ts.length, 0)
decreasing_by all_goals (simp only [Prod.lex_def] at *; omega)

/-- The pairs of a hash, up to the closing brace; a comma may stand before it. -/
def entries (ts : List Token) : Attempt (List (Expr × Expr)) ts.length :=
  if front ts = .braceR then .doneWith [] ts
  else (expression .lowest ts).andThen fun key ts₁ _ => expect .colon ts₁ fun _ ts₂ _ =>
    (expression .lowest ts₂).andThen fun value ts₃ _ =>
      if front ts₃ = .braceR then .doneWith [(key, value)] ts₃
      else expect .comma ts₃ fun _ rest _ => (entries rest).map ((key, value) :: ·)
termination_by (ts.length, 2)
decreasing_by all_goals (simp only [Prod.lex_def, true_and] at *; omega)

/-- The statements up to the closing brace, for which the end of the text is taken if there is none. -/
def block (ts : List Token) : Reading (List Stmt) ts.length :=
  match ts with
  | [] => ⟨[], [], [⟨.syntactic (.unexpected .braceR .eof), 0⟩], 1, Nat.le_refl _⟩
  | t :: ts =>
    if t.kind = .braceR then ⟨[], ts, [], 1, Nat.le_succ _⟩
    else (statement (t :: ts)).andThen fun s rest _ => (block rest).map (s.toList ++ ·)
termination_by (ts.length, 3)
decreasing_by all_goals (simp only [Prod.lex_def, List.length_cons, true_and] at *; omega)

/-- One statement, or none if it is malformed. -/
def statement (ts : List Token) : Reading (Option Stmt) (ts.length - 1) :=
  match ts with
  | [] => ((expression .lowest []).map .expr).orResume
  | t :: ts =>
    match t.kind with
    | .letWord => Reading.past <| Attempt.orSkip <|
      expect .ident ts fun name ts₁ _ => expect .assign ts₁ fun _ ts₂ _ =>
        (expression .lowest ts₂).andThen fun value rest _ => ended (.bind (.ofToken name) value) rest
    | .returnWord => Reading.past <| Attempt.orSkip <|
      (expression .lowest ts).andThen fun value rest _ => ended (.give value) rest
    | _ => Attempt.orResume <|
      (expression .lowest (t :: ts)).andThen fun value rest _ => ended (.expr value) rest
termination_by (ts.length, 2)
decreasing_by all_goals (simp only [Prod.lex_def, List.length_cons, true_and] at *; omega)

end

/-- The statements of a whole text. -/
def program (ts : List Token) : Reading (List Stmt) ts.length :=
  match ts with
  | [] => ⟨[], [], [], 0, Nat.le_refl _⟩
  | t :: ts => (statement (t :: ts)).andThen fun s rest _ => (program rest).map (s.toList ++ ·)
termination_by ts.length
decreasing_by simp only [List.length_cons] at *; omega

end Monkey.Parse
