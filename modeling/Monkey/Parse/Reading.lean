import Monkey.Diagnostic

namespace Monkey.Parse

/-- A diagnostic, and how many tokens were still ahead when it was found. -/
structure Fault where
  diagnostic : Diagnostic
  unread : Nat
deriving DecidableEq, Repr

/-- How an attempt to read a phrase ends. It is `refused` by the token in front (or by the end) if that
token cannot begin what is needed, and `missing` if another token has to come before the one in front. -/
inductive Outcome (α : Type)
  | done (value : α) (rest : List Token)
  | refused (rest : List Token)
  | missing (rest : List Token)

/-- Where the next statement is looked for: a token that was refused is given up. -/
def Outcome.resume {α : Type} : Outcome α → List Token
  | done _ rest => rest
  | refused rest => rest.tail
  | missing rest => rest

/-- The attempt to read a phrase, which leaves at most `n` tokens. Here `taken` counts the tokens passed
over, with one more each time that the end is passed over as if it were a token. -/
structure Attempt (α : Type) (n : Nat) where
  outcome : Outcome α
  log : List Fault
  taken : Nat
  short : outcome.resume.length ≤ n

/-- A phrase that is read to its end whatever the tokens are. -/
structure Reading (α : Type) (n : Nat) where
  value : α
  rest : List Token
  log : List Fault
  taken : Nat
  short : rest.length ≤ n

variable {α β : Type} {m n : Nat}

/-- The kind of the token in front. -/
def front : List Token → Kind
  | [] => .eof
  | t :: _ => t.kind

theorem length_tail_le (ts : List Token) : ts.tail.length ≤ ts.length :=
  List.length_tail ▸ Nat.sub_le ..

namespace Attempt

def done (value : α) (rest : List Token) : Attempt α rest.length :=
  ⟨.done value rest, [], 0, Nat.le_refl _⟩

/-- The phrase ends with the token in front. -/
def doneWith (value : α) (ts : List Token) : Attempt α ts.length :=
  ⟨.done value ts.tail, [], 1, length_tail_le ts⟩

def refused (error : SyntaxError) (ts : List Token) : Attempt α (ts.length - 1) :=
  ⟨.refused ts, [⟨.syntactic error, ts.length - 1⟩], 0, Nat.le_of_eq List.length_tail⟩

def missing (want : Kind) (ts : List Token) : Attempt α ts.length :=
  ⟨.missing ts, [⟨.syntactic (.unexpected want (front ts)), ts.length⟩], 0, Nat.le_refl _⟩

/-- The same attempt, with one token passed over before it. -/
def past (p : Attempt α n) : Attempt α n :=
  { p with taken := p.taken + 1 }

def map (f : α → β) : Attempt α n → Attempt β n
  | ⟨.done a rest, log, taken, short⟩ => ⟨.done (f a) rest, log, taken, short⟩
  | ⟨.refused rest, log, taken, short⟩ => ⟨.refused rest, log, taken, short⟩
  | ⟨.missing rest, log, taken, short⟩ => ⟨.missing rest, log, taken, short⟩

/-- Goes on with what is left if the phrase has been read. -/
def andThen (p : Attempt α m)
    (next : α → (rest : List Token) → rest.length ≤ m → Attempt β rest.length)
    (le : m ≤ n := by first | exact Nat.le_refl _ | exact Nat.sub_le _ _) : Attempt β n :=
  match p with
  | ⟨.done a rest, log, taken, short⟩ =>
    let q := next a rest short
    ⟨q.outcome, log ++ q.log, taken + q.taken, Nat.le_trans q.short (Nat.le_trans short le)⟩
  | ⟨.refused rest, log, taken, short⟩ => ⟨.refused rest, log, taken, Nat.le_trans short le⟩
  | ⟨.missing rest, log, taken, short⟩ => ⟨.missing rest, log, taken, Nat.le_trans short le⟩

end Attempt

/-- Takes the token in front if it is of the wanted kind, and goes on after it. -/
def expect (want : Kind) (ts : List Token)
    (next : Token → (rest : List Token) → rest.length < ts.length → Attempt α rest.length) :
    Attempt α ts.length :=
  match ts with
  | [] => .missing want []
  | t :: rest =>
    if t.kind = want then
      let q := next t rest (Nat.lt_succ_self _)
      ⟨q.outcome, q.log, q.taken + 1, Nat.le_succ_of_le q.short⟩
    else .missing want (t :: rest)

/-- What is left after the next semicolon. -/
def afterSemicolon (ts : List Token) : List Token :=
  (ts.dropWhile (·.kind ≠ .semicolon)).tail

theorem length_afterSemicolon_le (ts : List Token) :
    (afterSemicolon ts).length ≤ ts.tail.length := by
  have := (List.dropWhile_sublist (·.kind ≠ .semicolon) (l := ts)).length_le
  simp only [afterSemicolon, List.length_tail]
  omega

namespace Attempt

/-- A statement that fails is given up to its semicolon. -/
def orSkip : Attempt α n → Reading (Option α) n
  | ⟨.done a rest, log, taken, short⟩ => ⟨some a, rest, log, taken, short⟩
  | ⟨.refused rest, log, taken, short⟩ => skip rest log taken short
  | ⟨.missing rest, log, taken, short⟩ =>
    skip rest log taken (Nat.le_trans (length_tail_le rest) short)
where
  skip (rest : List Token) (log : List Fault) (taken : Nat) (short : rest.tail.length ≤ n) :
      Reading (Option α) n :=
    ⟨none, afterSemicolon rest, log,
      taken + (rest.takeWhile (·.kind ≠ .semicolon)).length + 1,
      Nat.le_trans (length_afterSemicolon_le rest) short⟩

/-- A statement that fails is given up where it failed. -/
def orResume : Attempt α n → Reading (Option α) n
  | ⟨.done a rest, log, taken, short⟩ => ⟨some a, rest, log, taken, short⟩
  | ⟨.refused rest, log, taken, short⟩ => ⟨none, rest.tail, log, taken + 1, short⟩
  | ⟨.missing rest, log, taken, short⟩ => ⟨none, rest, log, taken, short⟩

end Attempt

namespace Reading

def past (p : Reading α n) : Reading α n :=
  { p with taken := p.taken + 1 }

def map (f : α → β) (p : Reading α n) : Reading β n :=
  { p with value := f p.value }

/-- Reads one phrase after the other. -/
def andThen (p : Reading α m)
    (next : α → (rest : List Token) → rest.length ≤ m → Reading β rest.length)
    (le : m ≤ n := by first | exact Nat.le_refl _ | exact Nat.sub_le _ _) : Reading β n :=
  let q := next p.value p.rest p.short
  ⟨q.value, q.rest, p.log ++ q.log, p.taken + q.taken, Nat.le_trans q.short (Nat.le_trans p.short le)⟩

/-- Goes on with an attempt after a phrase that is always read. -/
def andTry (p : Reading α m)
    (next : α → (rest : List Token) → rest.length ≤ m → Attempt β rest.length)
    (le : m ≤ n := by first | exact Nat.le_refl _ | exact Nat.sub_le _ _) : Attempt β n :=
  let q := next p.value p.rest p.short
  ⟨q.outcome, p.log ++ q.log, p.taken + q.taken, Nat.le_trans q.short (Nat.le_trans p.short le)⟩

end Reading

end Monkey.Parse
