import Mathlib.Data.Int.ModEq
import Monkey.Proofs.Layers

namespace Monkey

/-- The operators that are those of the integers modulo `2 ^ 64`. -/
def ringOperators : List Kind :=
  [.plus, .minus, .star]

def arithmeticOperators : List Kind :=
  .slash :: ringOperators

/-- Integer literals, negations, and operators of these kinds between them. -/
def Expr.isArithmetic (ops : List Kind) : Expr → Bool
  | .int _ => true
  | .unary op right => op.kind = .minus && right.isArithmetic ops
  | .binary left op right => op.kind ∈ ops && left.isArithmetic ops && right.isArithmetic ops
  | _ => false

/-- What an expression without divisions amounts to among all integers. -/
def Expr.exact : Expr → Int
  | .int n => n.toInt
  | .unary _ right => -right.exact
  | .binary left op right =>
    match op.kind with
    | .plus => left.exact + right.exact
    | .minus => left.exact - right.exact
    | _ => left.exact * right.exact
  | _ => 0

/-- The number of 64 bits that is congruent to an integer. -/
structure Wraps (k : Int) (n : Int64) : Prop where
  least_le : -2 ^ 63 ≤ n.toInt
  lt : n.toInt < 2 ^ 63
  modEq : n.toInt ≡ k [ZMOD 2 ^ 64]

/-- The quotient toward zero of the numbers of 64 bits that are congruent to `a` and `b`. -/
def quotient? (a b : Int) : Option Int :=
  if b.bmod (2 ^ 64) = 0 then none else some ((a.bmod (2 ^ 64)).tdiv (b.bmod (2 ^ 64)))

/-- What an operator makes of two integers. Only a division takes them as numbers of 64 bits. -/
def Kind.combine? (a b : Int) : Kind → Option Int
  | .plus => some (a + b)
  | .minus => some (a - b)
  | .star => some (a * b)
  | .slash => quotient? a b
  | _ => .none

/-- What an expression amounts to, unless something is divided by zero. -/
def Expr.number? : Expr → Option Int
  | .int n => some n.toInt
  | .unary _ right => right.number?.map (-·)
  | .binary left op right => do
    let a ← left.number?
    let b ← right.number?
    op.kind.combine? a b
  | _ => none

section wraps

variable {k l : Int} {m n : Int64}

theorem wraps_of_bmod (h : n.toInt = k.bmod (2 ^ 64)) (hkl : k ≡ l [ZMOD 2 ^ 64]) : Wraps l n where
  least_le := n.le_toInt
  lt := n.toInt_lt
  modEq := by
    rw [h]
    exact Int.bmod_emod.trans hkl

theorem wraps_toInt (n : Int64) : Wraps n.toInt n :=
  ⟨n.le_toInt, n.toInt_lt, rfl⟩

theorem Wraps.bmod_eq (h : Wraps k n) : k.bmod (2 ^ 64) = n.toInt := by
  have hmod : k.bmod (2 ^ 64) = n.toInt.bmod (2 ^ 64) := by
    rw [← Int.emod_bmod, ← Int.emod_bmod n.toInt]
    exact congrArg (Int.bmod · _) h.modEq.symm
  rw [hmod]
  exact Int.bmod_eq_of_le h.least_le h.lt

theorem Wraps.neg (h : Wraps k n) : Wraps (-k) (-n) :=
  wraps_of_bmod (Int64.toInt_neg n) h.modEq.neg

theorem Wraps.add (hk : Wraps k m) (hl : Wraps l n) : Wraps (k + l) (m + n) :=
  wraps_of_bmod (Int64.toInt_add m n) (hk.modEq.add hl.modEq)

theorem Wraps.sub (hk : Wraps k m) (hl : Wraps l n) : Wraps (k - l) (m - n) :=
  wraps_of_bmod (Int64.toInt_sub m n) (hk.modEq.sub hl.modEq)

theorem Wraps.mul (hk : Wraps k m) (hl : Wraps l n) : Wraps (k * l) (m * n) :=
  wraps_of_bmod (Int64.toInt_mul m n) (hk.modEq.mul hl.modEq)

theorem wraps_div (m n : Int64) : Wraps (m.toInt.tdiv n.toInt) (m / n) :=
  wraps_of_bmod (Int64.toInt_div m n) rfl

theorem Wraps.quotient? (hk : Wraps k m) (hl : Wraps l n) :
    Monkey.quotient? k l = if n = 0 then none else some (m.toInt.tdiv n.toInt) := by
  have hzero : n.toInt = 0 ↔ n = 0 := Int64.toInt_inj (y := 0)
  simp only [Monkey.quotient?, hk.bmod_eq, hl.bmod_eq, hzero]

end wraps

theorem Expr.number?_eq_some : (e : Expr) → e.isArithmetic ringOperators → e.number? = some e.exact
  | .int _, _ => rfl
  | .unary op right, h => by
    rw [isArithmetic, Bool.and_eq_true] at h
    rw [number?, right.number?_eq_some h.2, exact, Option.map_some]
  | .binary left op right, h => by
    rw [isArithmetic, Bool.and_eq_true, Bool.and_eq_true, decide_eq_true_iff] at h
    obtain ⟨⟨hop, hleft⟩, hright⟩ := h
    rw [number?, left.number?_eq_some hleft, right.number?_eq_some hright, exact]
    simp only [ringOperators, List.mem_cons, List.not_mem_nil, or_false] at hop
    rcases hop with hop | hop | hop <;> rw [hop] <;> rfl

theorem Expr.isArithmetic_mono {ops ops' : List Kind} (hops : ∀ k ∈ ops, k ∈ ops') :
    (e : Expr) → e.isArithmetic ops → e.isArithmetic ops'
  | .int _, _ => rfl
  | .unary op right, h => by
    rw [isArithmetic, Bool.and_eq_true] at h ⊢
    exact ⟨h.1, right.isArithmetic_mono hops h.2⟩
  | .binary left op right, h => by
    rw [isArithmetic, Bool.and_eq_true, Bool.and_eq_true, decide_eq_true_iff] at h ⊢
    exact ⟨⟨hops _ h.1.1, left.isArithmetic_mono hops h.1.2⟩, right.isArithmetic_mono hops h.2⟩

section steps

variable {k l j : Int} {m n : Int64} {op : Token}

theorem Wraps.combine (hk : Wraps k m) (hl : Wraps l n) (h : op.kind.combine? k l = some j) :
    ∃ r, Value.binary op (.integer m) (.integer n) = .integer r ∧ Wraps j r := by
  unfold Kind.combine? at h
  unfold Value.binary Value.binaryInteger
  split at h
  · next hop =>
    cases h
    simp only [hop]
    exact ⟨_, rfl, hk.add hl⟩
  · next hop =>
    cases h
    simp only [hop]
    exact ⟨_, rfl, hk.sub hl⟩
  · next hop =>
    cases h
    simp only [hop]
    exact ⟨_, rfl, hk.mul hl⟩
  · next hop =>
    rw [hk.quotient? hl] at h
    split at h
    · cases h
    · next hn =>
      cases h
      simp only [hop, hn, if_false]
      exact ⟨_, rfl, wraps_div m n⟩
  · cases h

theorem Wraps.divides_by_zero (hk : Wraps k m) (hl : Wraps l n) (hop : op.kind ∈ arithmeticOperators)
    (h : op.kind.combine? k l = none) : op.kind = .slash ∧ n = 0 := by
  simp only [arithmeticOperators, ringOperators, List.mem_cons, List.not_mem_nil, or_false] at hop
  rcases hop with hop | hop | hop | hop <;> rw [hop] at h
  · rw [Kind.combine?, hk.quotient? hl] at h
    split at h
    · next hn => exact ⟨hop, hn⟩
    · cases h
  all_goals cases h

end steps

variable {scope : Scope} {m : Machine}

/-- Numbers as they are written and as they are computed never interrupt what they stand in. -/
theorem Expr.evaluates_exact : (e : Expr) → e.isArithmetic arithmeticOperators → ∀ {k}, e.number? = some k →
    ∃ n seen, Evaluates scope e m seen (.integer n) m ∧ Wraps k n
  | .int n, _, _, hk => by
    cases hk
    exact ⟨n, _, evaluates_int scope n m, wraps_toInt n⟩
  | .unary op right, h, _, hk => by
    rw [isArithmetic, Bool.and_eq_true, decide_eq_true_iff] at h
    obtain ⟨a, ha, rfl⟩ := Option.map_eq_some_iff.1 hk
    obtain ⟨n, seen, hright, hn⟩ := right.evaluates_exact h.2 ha
    have hminus : (Value.integer n).unary op = .integer (-n) := by
      rw [Value.unary, h.1]
    have hunary := hright.unary rfl op
    rw [hminus] at hunary
    exact ⟨-n, _, hunary, hn.neg⟩
  | .binary left op right, h, _, hk => by
    rw [isArithmetic, Bool.and_eq_true, Bool.and_eq_true] at h
    obtain ⟨a, ha, hrest⟩ := Option.bind_eq_some_iff.1 hk
    obtain ⟨b, hb, hj⟩ := Option.bind_eq_some_iff.1 hrest
    obtain ⟨n, first, hleft, hn⟩ := left.evaluates_exact h.1.2 ha
    obtain ⟨n', second, hright, hn'⟩ := right.evaluates_exact h.2 hb
    obtain ⟨r, hbinary, hr⟩ := hn.combine hn' hj
    have hwhole := hleft.binary rfl hright rfl op
    rw [hbinary] at hwhole
    exact ⟨r, _, hwhole, hr⟩

/-- A division by zero is what is evaluated next in the expression, after all that comes before it. What has been
seen then ends with its operands. -/
def DividesByZero (scope : Scope) (e : Expr) (m : Machine) (seen : List Event) (context : List Layer) (m' : Machine) :
    Prop :=
  ∃ left op right a m₁ m₂ first second third, e = fillAll context (.binary left op right) ∧ op.kind = .slash ∧
    Reaches scope context m first m₁ ∧ Evaluates scope left m₁ second (.integer a) m₂ ∧
    Evaluates scope right m₂ third (.integer 0) m' ∧
    seen = first ++ (second ++ (third ++ [.binary (.integer a) (.integer 0)]))

/-- Then the whole is an error, and nothing else is seen. -/
theorem DividesByZero.evaluates {e : Expr} {m' : Machine} {seen : List Event} {context : List Layer}
    (h : DividesByZero scope e m seen context m') :
    Evaluates scope e m (seen ++ List.replicate (heightOf context + 1) (.gave (.error .divisionByZero)))
      (.error .divisionByZero) m' := by
  obtain ⟨left, op, right, a, m₁, m₂, first, second, third, rfl, hop, hcontext, hleft, hright, rfl⟩ := h
  have hbinary : Value.binary op (.integer a) (.integer 0) = .error .divisionByZero := by
    rw [Value.binary, Value.binaryInteger, hop]
    rfl
  have hdivision := hleft.binary rfl hright rfl op
  rw [hbinary] at hdivision
  have hwhole := hcontext.stops hdivision rfl
  rw [List.append_assoc first, List.replicate_succ]
  rw [List.append_assoc, List.singleton_append] at hwhole
  exact hwhole

theorem DividesByZero.cons {e : Expr} {layer : Layer} {seen rest : List Event} {context : List Layer}
    (hlayer : layer.Opens scope m seen m) (h : DividesByZero scope e m rest context m) :
    DividesByZero scope (layer.fill e) m (seen ++ rest) (layer :: context) m := by
  obtain ⟨left, op, right, a, m₁, m₂, first, second, third, rfl, hop, hcontext, hleft, hright, rfl⟩ := h
  refine ⟨left, op, right, a, m₁, m₂, seen ++ first, second, third, rfl, hop, .cons hlayer hcontext, hleft, hright, ?_⟩
  rw [List.append_assoc]

theorem Expr.divides_by_zero : (e : Expr) → e.isArithmetic arithmeticOperators → e.number? = none →
    ∃ seen context, DividesByZero scope e m seen context m
  | .unary op right, h, hnone => by
    rw [isArithmetic, Bool.and_eq_true] at h
    obtain ⟨seen, context, hright⟩ := right.divides_by_zero h.2 (Option.map_eq_none_iff.1 hnone)
    exact ⟨_, _, hright.cons .unary⟩
  | .binary left op right, h, hnone => by
    rw [isArithmetic, Bool.and_eq_true, Bool.and_eq_true, decide_eq_true_iff] at h
    obtain ⟨⟨hop, hleft⟩, hright⟩ := h
    cases ha : left.number? with
    | none =>
      obtain ⟨seen, context, hstop⟩ := left.divides_by_zero hleft ha
      exact ⟨_, _, hstop.cons .left⟩
    | some a =>
      obtain ⟨n, first, hevaluates, hn⟩ : ∃ n seen, Evaluates scope left m seen (.integer n) m ∧ Wraps a n :=
        left.evaluates_exact hleft ha
      cases hb : right.number? with
      | none =>
        obtain ⟨seen, context, hstop⟩ := right.divides_by_zero hright hb
        exact ⟨_, _, hstop.cons (.right hevaluates rfl)⟩
      | some b =>
        -- both operands are numbers, so it is this operator that fails
        obtain ⟨n', second, hevaluates', hn'⟩ : ∃ n seen, Evaluates scope right m seen (.integer n) m ∧ Wraps b n :=
          right.evaluates_exact hright hb
        rw [number?, ha, hb] at hnone
        obtain ⟨hslash, rfl⟩ := hn.divides_by_zero hn' hop hnone
        exact ⟨_, [], left, op, right, n, m, m, [], first, second, rfl, hslash, .nil, hevaluates, hevaluates', rfl⟩

/-- Arithmetic is that of the integers modulo `2 ^ 64`, however large the numbers between are. A division takes the
numbers of 64 bits that its operands come to, and goes toward zero. The first one by zero that is reached makes the
whole expression an error, and nothing is evaluated after it. What is said to be evaluated is what the evaluator
gives at some depth. -/
theorem arithmetic_wraps (scope : Scope) (m : Machine) :
    (∀ {e : Expr} {v : Value} {m' : Machine},
      (∃ seen, Evaluates scope e m seen v m') ↔ ∃ depth, eval depth scope e m = some (v, m')) ∧
    (∀ e : Expr, e.isArithmetic ringOperators →
      ∃ n seen, Evaluates scope e m seen (.integer n) m ∧ Wraps e.exact n) ∧
    (∀ e : Expr, e.isArithmetic arithmeticOperators →
      (∀ k, e.number? = some k → ∃ n seen, Evaluates scope e m seen (.integer n) m ∧ Wraps k n) ∧
        (e.number? = none → ∃ seen context, DividesByZero scope e m seen context m)) ∧
    (∀ {left right : Expr} {op : Token} {a b : Int64} {m₁ m₂ : Machine} {first second : List Event},
      op.kind = .slash → Evaluates scope left m first (.integer a) m₁ →
      Evaluates scope right m₁ second (.integer b) m₂ → b ≠ 0 →
      ∃ q seen, Evaluates scope (.binary left op right) m seen (.integer q) m₂ ∧
        Wraps (a.toInt.tdiv b.toInt) q) ∧
    (∀ {e : Expr} {m' : Machine} {seen : List Event} {context : List Layer},
      DividesByZero scope e m seen context m' →
      Evaluates scope e m (seen ++ List.replicate (heightOf context + 1) (.gave (.error .divisionByZero)))
        (.error .divisionByZero) m') ∧
    RuntimeError.divisionByZero.message = "division by zero" := by
  refine ⟨exists_evaluates_iff, fun e h => ?_, fun e h => ⟨fun k hk => e.evaluates_exact h hk, e.divides_by_zero h⟩, ?_,
    DividesByZero.evaluates, rfl⟩
  · have hall : e.isArithmetic arithmeticOperators := e.isArithmetic_mono (fun _ => List.mem_cons_of_mem _) h
    exact e.evaluates_exact hall (e.number?_eq_some h)
  · intro left right op a b m₁ m₂ first second hop hleft hright hb
    have hquotient : op.kind.combine? a.toInt b.toInt = some (a.toInt.tdiv b.toInt) := by
      rw [hop, Kind.combine?, (wraps_toInt a).quotient? (wraps_toInt b), if_neg hb]
    obtain ⟨q, hbinary, hq⟩ := (wraps_toInt a).combine (wraps_toInt b) hquotient
    have hwhole := hleft.binary rfl hright rfl op
    rw [hbinary] at hwhole
    exact ⟨q, _, hwhole, hq⟩

/-- One less than the least number is the greatest one, and the least number divided by `-1` is itself again. In
`1 + 2 / (3 - 3) * (4 / 0)` the first division is reached. -/
theorem arithmetic_wraps_of_least :
    let minus : Token := .synthetic .minus "-"
    let slash : Token := .synthetic .slash "/"
    let most : Expr := .int 9223372036854775807
    let least : Expr := .binary (.unary minus most) minus (.int 1)
    let below : Expr := .binary least minus (.int 1)
    let turned : Expr := .binary least slash (.unary minus (.int 1))
    let failing : Expr := .binary (.int 1) (.synthetic .plus "+")
      (.binary (.binary (.int 2) slash (.binary (.int 3) minus (.int 3))) (.synthetic .star "*")
        (.binary (.int 4) slash (.int 0)))
    let m := Machine.new none
    (below.isArithmetic ringOperators ∧ below.exact = -2 ^ 63 - 1 ∧
      ∃ n seen, Evaluates ⟨0⟩ below m seen (.integer n) m ∧ Wraps (-2 ^ 63 - 1) n) ∧
    (turned.isArithmetic arithmeticOperators ∧ turned.number? = some (2 ^ 63) ∧
      ∃ n seen, Evaluates ⟨0⟩ turned m seen (.integer n) m ∧ Wraps (2 ^ 63) n) ∧
    (∃ first second, Evaluates ⟨0⟩ least m first (.integer (-9223372036854775808)) m ∧
      Evaluates ⟨0⟩ (.unary minus (.int 1)) m second (.integer (-1)) m ∧
      ∃ q seen, Evaluates ⟨0⟩ turned m seen (.integer q) m ∧ Wraps (2 ^ 63) q) ∧
    (failing.isArithmetic arithmeticOperators ∧ failing.number? = none ∧
      ∃ seen context, DividesByZero ⟨0⟩ failing m seen context m ∧
        Evaluates ⟨0⟩ failing m (seen ++ List.replicate (heightOf context + 1) (.gave (.error .divisionByZero)))
          (.error .divisionByZero) m) := by
  intro minus slash most least below turned failing m
  obtain ⟨-, hring, harithmetic, hdivision, hzero, -⟩ := arithmetic_wraps ⟨0⟩ m
  have hleast : Evaluates ⟨0⟩ least m _ (.integer (-9223372036854775808)) m := ⟨3, rfl⟩
  have hone : Evaluates ⟨0⟩ (.unary minus (.int 1)) m _ (.integer (-1)) m := ⟨2, rfl⟩
  refine ⟨⟨rfl, by decide, hring below rfl⟩, ⟨rfl, by decide, (harithmetic turned rfl).1 _ (by decide)⟩,
    ⟨_, _, hleast, hone, hdivision rfl hleast hone (by decide)⟩, rfl, by decide, ?_⟩
  obtain ⟨seen, context, hfails⟩ := (harithmetic failing rfl).2 (by decide)
  exact ⟨seen, context, hfails, hzero hfails⟩

end Monkey
