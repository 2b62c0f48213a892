import Monkey.Parse.Reading

namespace Monkey.Parse

@[simp] theorem front_cons (t : Token) (ts : List Token) : front (t :: ts) = t.kind :=
  rfl

variable {α β : Type} {m n : Nat}

namespace Attempt

/-- The phrase is read without any fault. -/
def Yields (p : Attempt α n) (a : α) (rest : List Token) : Prop :=
  p.outcome = .done a rest ∧ p.log = []

/-- An attempt that does not succeed tells of a fault. -/
def Honest (p : Attempt α n) : Prop :=
  (∃ a rest, p.outcome = .done a rest) ∨ p.log ≠ []

theorem Yields.length_le {p : Attempt α n} {a : α} {rest : List Token} (h : p.Yields a rest) :
    rest.length ≤ n := by
  have := p.short
  rwa [h.1] at this

@[simp] theorem yields_done {a b : α} {ts rest : List Token} :
    (done a ts).Yields b rest ↔ b = a ∧ rest = ts := by
  simp [Yields, done, eq_comm]

@[simp] theorem yields_doneWith {a b : α} {ts rest : List Token} :
    (doneWith a ts).Yields b rest ↔ b = a ∧ rest = ts.tail := by
  simp [Yields, doneWith, eq_comm]

@[simp] theorem not_yields_refused {error : SyntaxError} {ts : List Token} {a : α}
    {rest : List Token} : ¬ (refused error ts).Yields a rest := by
  simp [Yields, refused]

@[simp] theorem not_yields_missing {want : Kind} {ts : List Token} {a : α} {rest : List Token} :
    ¬ (missing want ts).Yields a rest := by
  simp [Yields, missing]

@[simp] theorem yields_past {p : Attempt α n} {a : α} {rest : List Token} :
    p.past.Yields a rest ↔ p.Yields a rest :=
  Iff.rfl

@[simp] theorem yields_map {f : α → β} {p : Attempt α n} {b : β} {rest : List Token} :
    (p.map f).Yields b rest ↔ ∃ a, p.Yields a rest ∧ f a = b := by
  rcases p with ⟨outcome, log, taken, short⟩
  cases outcome with
  | done a ts =>
    constructor
    · rintro ⟨⟨⟩, hlog⟩
      exact ⟨a, ⟨rfl, hlog⟩, rfl⟩
    · rintro ⟨_, ⟨⟨⟩, hlog⟩, rfl⟩
      exact ⟨rfl, hlog⟩
  | refused _ | missing _ =>
    constructor
    · rintro ⟨h, -⟩
      exact nomatch h
    · rintro ⟨_, ⟨h, -⟩, -⟩
      exact nomatch h

@[simp] theorem yields_andThen {p : Attempt α m}
    {next : α → (rest : List Token) → rest.length ≤ m → Attempt β rest.length} {le : m ≤ n} {b : β}
    {rest : List Token} :
    (p.andThen next le).Yields b rest ↔
      ∃ a ts, ∃ h : ts.length ≤ m, p.Yields a ts ∧ (next a ts h).Yields b rest := by
  rcases p with ⟨outcome, log, taken, short⟩
  cases outcome with
  | done a ts =>
    constructor
    · rintro ⟨houtcome, hlog⟩
      have ⟨hl, hnext⟩ := List.append_eq_nil_iff.1 hlog
      exact ⟨a, ts, short, ⟨rfl, hl⟩, houtcome, hnext⟩
    · rintro ⟨_, _, _, ⟨⟨⟩, hl⟩, hy⟩
      exact ⟨hy.1, List.append_eq_nil_iff.2 ⟨hl, hy.2⟩⟩
  | refused _ | missing _ =>
    constructor
    · rintro ⟨h, -⟩
      exact nomatch h
    · rintro ⟨_, _, _, ⟨h, -⟩, -⟩
      exact nomatch h

theorem Yields.andThen {p : Attempt α m} {a : α} {ts : List Token}
    {next : α → (rest : List Token) → rest.length ≤ m → Attempt β rest.length} {le : m ≤ n} {b : β}
    {rest : List Token} (hp : p.Yields a ts) (h : (next a ts hp.length_le).Yields b rest) :
    (p.andThen next le).Yields b rest :=
  yields_andThen.2 ⟨a, ts, hp.length_le, hp, h⟩

theorem honest_done (a : α) (ts : List Token) : (done a ts).Honest :=
  Or.inl ⟨a, ts, rfl⟩

theorem honest_doneWith (a : α) (ts : List Token) : (doneWith a ts).Honest :=
  Or.inl ⟨a, ts.tail, rfl⟩

theorem honest_refused (error : SyntaxError) (ts : List Token) :
    (refused error ts : Attempt α _).Honest :=
  Or.inr (by simp [refused])

theorem honest_missing (want : Kind) (ts : List Token) : (missing want ts : Attempt α _).Honest :=
  Or.inr (by simp [missing])

theorem Honest.past {p : Attempt α n} (h : p.Honest) : p.past.Honest :=
  h

theorem Honest.map {p : Attempt α n} (h : p.Honest) (f : α → β) : (p.map f).Honest := by
  obtain ⟨_ | _ | _, log, taken, short⟩ := p <;> simp_all [Honest, Attempt.map]

theorem Honest.andThen {p : Attempt α m}
    {next : α → (rest : List Token) → rest.length ≤ m → Attempt β rest.length} {le : m ≤ n}
    (hp : p.Honest) (hnext : ∀ a rest h, (next a rest h).Honest) : (p.andThen next le).Honest := by
  obtain ⟨⟨a, rest⟩ | _ | _, log, taken, short⟩ := p
  · obtain ⟨b, ts, hb⟩ | hl := hnext a rest short
    · exact Or.inl ⟨b, ts, hb⟩
    · exact Or.inr (by simp [Attempt.andThen, hl])
  · simpa [Honest, Attempt.andThen] using hp
  · simpa [Honest, Attempt.andThen] using hp

end Attempt

section expect

variable {want : Kind} {ts : List Token} {t : Token}
  {next : Token → (rest : List Token) → rest.length < ts.length → Attempt α rest.length}

@[simp] theorem not_yields_expect_nil {a : α} {rest : List Token}
    {next : Token → (rest : List Token) → rest.length < 0 → Attempt α rest.length} :
    ¬ (expect want [] next).Yields a rest :=
  Attempt.not_yields_missing

@[simp] theorem yields_expect_cons {a : α} {rest : List Token}
    {next : Token → (rest : List Token) → rest.length < ts.length + 1 → Attempt α rest.length} :
    (expect want (t :: ts) next).Yields a rest ↔
      t.kind = want ∧ (next t ts (Nat.lt_succ_self _)).Yields a rest := by
  by_cases h : t.kind = want
  · simp [expect, h, Attempt.Yields]
  · simp [expect, h]

theorem yields_expect {a : α} {rest : List Token} :
    (expect want ts next).Yields a rest ↔
      ∃ t us, ∃ h : us.length < ts.length, ts = t :: us ∧ t.kind = want ∧ (next t us h).Yields a rest := by
  cases ts with
  | nil => simp
  | cons t us =>
    simp only [yields_expect_cons]
    constructor
    · rintro ⟨hk, hy⟩
      exact ⟨t, us, Nat.lt_succ_self _, rfl, hk, hy⟩
    · rintro ⟨_, _, _, ⟨rfl, rfl⟩, hk, hy⟩
      exact ⟨hk, hy⟩

theorem honest_expect (hnext : ∀ t rest h, (next t rest h).Honest) : (expect want ts next).Honest := by
  cases ts with
  | nil => exact Attempt.honest_missing want []
  | cons t us =>
    by_cases h : t.kind = want
    · rw [expect, if_pos h]
      exact hnext t us (Nat.lt_succ_self _)
    · rw [expect, if_neg h]
      exact Attempt.honest_missing want (t :: us)

end expect

namespace Reading

/-- The phrase is read without any fault. -/
def Yields (p : Reading α n) (a : α) (rest : List Token) : Prop :=
  p.value = a ∧ p.rest = rest ∧ p.log = []

theorem Yields.length_le {p : Reading α n} {a : α} {rest : List Token} (h : p.Yields a rest) :
    rest.length ≤ n := by
  rw [← h.2.1]
  exact p.short

@[simp] theorem yields_past {p : Reading α n} {a : α} {rest : List Token} :
    p.past.Yields a rest ↔ p.Yields a rest :=
  Iff.rfl

@[simp] theorem yields_map {f : α → β} {p : Reading α n} {b : β} {rest : List Token} :
    (p.map f).Yields b rest ↔ ∃ a, p.Yields a rest ∧ f a = b := by
  constructor
  · rintro ⟨hvalue, hrest⟩
    exact ⟨p.value, ⟨rfl, hrest⟩, hvalue⟩
  · rintro ⟨_, ⟨rfl, hrest⟩, hvalue⟩
    exact ⟨hvalue, hrest⟩

@[simp] theorem yields_andThen {p : Reading α m}
    {next : α → (rest : List Token) → rest.length ≤ m → Reading β rest.length} {le : m ≤ n} {b : β}
    {rest : List Token} :
    (p.andThen next le).Yields b rest ↔
      ∃ a ts, ∃ h : ts.length ≤ m, p.Yields a ts ∧ (next a ts h).Yields b rest := by
  constructor
  · rintro ⟨hvalue, hrest, hlog⟩
    have ⟨hp, hnext⟩ := List.append_eq_nil_iff.1 hlog
    exact ⟨p.value, p.rest, p.short, ⟨rfl, rfl, hp⟩, hvalue, hrest, hnext⟩
  · rintro ⟨_, _, _, ⟨rfl, rfl, hp⟩, hvalue, hrest, hnext⟩
    exact ⟨hvalue, hrest, List.append_eq_nil_iff.2 ⟨hp, hnext⟩⟩

@[simp] theorem yields_andTry {p : Reading α m}
    {next : α → (rest : List Token) → rest.length ≤ m → Attempt β rest.length} {le : m ≤ n} {b : β}
    {rest : List Token} :
    (p.andTry next le).Yields b rest ↔
      ∃ a ts, ∃ h : ts.length ≤ m, p.Yields a ts ∧ (next a ts h).Yields b rest := by
  constructor
  · rintro ⟨houtcome, hlog⟩
    have ⟨hp, hnext⟩ := List.append_eq_nil_iff.1 hlog
    exact ⟨p.value, p.rest, p.short, ⟨rfl, rfl, hp⟩, houtcome, hnext⟩
  · rintro ⟨_, _, _, ⟨rfl, rfl, hp⟩, houtcome, hnext⟩
    exact ⟨houtcome, List.append_eq_nil_iff.2 ⟨hp, hnext⟩⟩

theorem Yields.andThen {p : Reading α m} {a : α} {ts : List Token}
    {next : α → (rest : List Token) → rest.length ≤ m → Reading β rest.length} {le : m ≤ n} {b : β}
    {rest : List Token} (hp : p.Yields a ts) (h : (next a ts hp.length_le).Yields b rest) :
    (p.andThen next le).Yields b rest :=
  yields_andThen.2 ⟨a, ts, hp.length_le, hp, h⟩

theorem Yields.andTry {p : Reading α m} {a : α} {ts : List Token}
    {next : α → (rest : List Token) → rest.length ≤ m → Attempt β rest.length} {le : m ≤ n} {b : β}
    {rest : List Token} (hp : p.Yields a ts) (h : (next a ts hp.length_le).Yields b rest) :
    (p.andTry next le).Yields b rest :=
  yields_andTry.2 ⟨a, ts, hp.length_le, hp, h⟩

theorem honest_andTry {p : Reading α m}
    {next : α → (rest : List Token) → rest.length ≤ m → Attempt β rest.length} {le : m ≤ n}
    (hnext : ∀ a rest h, (next a rest h).Honest) : (p.andTry next le).Honest := by
  obtain ⟨b, ts, hb⟩ | hl := hnext p.value p.rest p.short
  · exact Or.inl ⟨b, ts, hb⟩
  · exact Or.inr (by simp [andTry, hl])

end Reading

namespace Attempt

theorem Yields.orSkip {p : Attempt α n} {a : α} {rest : List Token} (h : p.Yields a rest) :
    p.orSkip.Yields (some a) rest := by
  obtain ⟨_ | _ | _, log, taken, short⟩ := p <;>
    simp_all [Yields, Reading.Yields, Attempt.orSkip]

theorem Yields.orResume {p : Attempt α n} {a : α} {rest : List Token} (h : p.Yields a rest) :
    p.orResume.Yields (some a) rest := by
  obtain ⟨_ | _ | _, log, taken, short⟩ := p <;>
    simp_all [Yields, Reading.Yields, Attempt.orResume]

/-- An attempt that does not succeed leaves a fault in the log. -/
theorem Honest.log_ne_nil {p : Attempt α n} (hp : p.Honest) (h : ∀ a rest, p.outcome ≠ .done a rest) :
    p.log ≠ [] :=
  hp.resolve_left fun ⟨a, rest, hdone⟩ => h a rest hdone

theorem yields_orSkip {p : Attempt α n} (hp : p.Honest) {o : Option α} {rest : List Token} :
    p.orSkip.Yields o rest ↔ ∃ a, o = some a ∧ p.Yields a rest := by
  rcases p with ⟨outcome, log, taken, short⟩
  cases outcome with
  | done a ts =>
    constructor
    · rintro ⟨rfl, rfl, hlog⟩
      exact ⟨a, rfl, rfl, hlog⟩
    · rintro ⟨_, rfl, ⟨⟩, hlog⟩
      exact ⟨rfl, rfl, hlog⟩
  | refused _ | missing _ =>
    have hlog := hp.log_ne_nil fun _ _ h => nomatch h
    constructor
    · rintro ⟨-, -, h⟩
      exact absurd h hlog
    · rintro ⟨_, -, -, h⟩
      exact absurd h hlog

theorem yields_orResume {p : Attempt α n} (hp : p.Honest) {o : Option α} {rest : List Token} :
    p.orResume.Yields o rest ↔ ∃ a, o = some a ∧ p.Yields a rest := by
  rcases p with ⟨outcome, log, taken, short⟩
  cases outcome with
  | done a ts =>
    constructor
    · rintro ⟨rfl, rfl, hlog⟩
      exact ⟨a, rfl, rfl, hlog⟩
    · rintro ⟨_, rfl, ⟨⟩, hlog⟩
      exact ⟨rfl, rfl, hlog⟩
  | refused _ | missing _ =>
    have hlog := hp.log_ne_nil fun _ _ h => nomatch h
    constructor
    · rintro ⟨-, -, h⟩
      exact absurd h hlog
    · rintro ⟨_, -, -, h⟩
      exact absurd h hlog

end Attempt

end Monkey.Parse
