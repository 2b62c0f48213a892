import Monkey.Parse.Grammar
import Monkey.Proofs.Yields

namespace Monkey.Parse

/-- How reading a phrase ends, and the faults that it tells of. -/
structure Report (α : Type) where
  outcome : Outcome α
  log : List Fault

variable {α β : Type} {m n : Nat}

def Attempt.report (p : Attempt α n) : Report α :=
  ⟨p.outcome, p.log⟩

def Reading.report (p : Reading α n) : Report α :=
  ⟨.done p.value p.rest, p.log⟩

theorem Attempt.yields_of_report {p : Attempt α n} {a : α} {rest : List Token}
    (h : p.report = ⟨.done a rest, []⟩) : p.Yields a rest :=
  ⟨congrArg Report.outcome h, congrArg Report.log h⟩

theorem Attempt.Yields.report {p : Attempt α n} {a : α} {rest : List Token} (h : p.Yields a rest) :
    p.report = ⟨.done a rest, []⟩ := by
  rw [Attempt.report, h.1, h.2]

theorem Reading.yields_of_report {p : Reading α n} {a : α} {rest : List Token}
    (h : p.report = ⟨.done a rest, []⟩) : p.Yields a rest := by
  have houtcome := congrArg Report.outcome h
  simp only [Reading.report, Outcome.done.injEq] at houtcome
  exact ⟨houtcome.1, houtcome.2, congrArg Report.log h⟩

theorem Reading.Yields.report {p : Reading α n} {a : α} {rest : List Token} (h : p.Yields a rest) :
    p.report = ⟨.done a rest, []⟩ := by
  rw [Reading.report, h.1, h.2.1, h.2.2]

namespace Report

/-- What is told of if, after a phrase that could be read, another one is tried. -/
def andThen (r : Report α) (next : α → List Token → Report β) : Report β :=
  match r with
  | ⟨.done a rest, log⟩ => ⟨(next a rest).outcome, log ++ (next a rest).log⟩
  | ⟨.refused rest, log⟩ => ⟨.refused rest, log⟩
  | ⟨.missing rest, log⟩ => ⟨.missing rest, log⟩

/-- The first error that is told of. -/
def Tells (r : Report α) (e : SyntaxError) : Prop :=
  r.log.head?.map (·.diagnostic) = some (.syntactic e)

theorem Tells.andThen {r : Report α} {e : SyntaxError} (h : r.Tells e) (next : α → List Token → Report β) :
    (r.andThen next).Tells e := by
  obtain ⟨outcome, log⟩ := r
  cases outcome with
  | done a rest =>
    obtain ⟨fault, hfault, hdiagnostic⟩ := Option.map_eq_some_iff.1 h
    obtain ⟨more, rfl⟩ := List.head?_eq_some_iff.1 hfault
    exact congrArg some hdiagnostic
  | refused rest | missing rest => exact h

end Report

theorem Attempt.report_andThen (p : Attempt α m) (next : α → (rest : List Token) → Attempt β rest.length)
    (le : m ≤ n) :
    (p.andThen (fun a rest _ => next a rest) le).report = p.report.andThen fun a rest => (next a rest).report := by
  obtain ⟨_ | _ | _, log, taken, short⟩ := p <;> rfl

theorem Reading.report_andTry (p : Reading α m) (next : α → (rest : List Token) → Attempt β rest.length)
    (le : m ≤ n) :
    (p.andTry (fun a rest _ => next a rest) le).report = p.report.andThen fun a rest => (next a rest).report :=
  rfl

theorem Reading.report_andThen (p : Reading α m) (next : α → (rest : List Token) → Reading β rest.length)
    (le : m ≤ n) :
    (p.andThen (fun a rest _ => next a rest) le).report = p.report.andThen fun a rest => (next a rest).report :=
  rfl

/-- The error tells of the token in front, or of the end. -/
inductive Blames : SyntaxError → List Token → Prop
  | noOperand {ts : List Token} : Blames (.noOperand (front ts)) ts
  | unexpected {ts : List Token} (want : Kind) : Blames (.unexpected want (front ts)) ts
  | numberTooLarge {t : Token} {ts : List Token} :
    t.kind = .int → maxNumeral < Text.value t.text.toList → Blames (.numberTooLarge t.text) (t :: ts)

theorem front_eq_of_head? {ts us : List Token} (h : us.head? = ts.head?) : front us = front ts := by
  cases us with
  | nil =>
    rw [eq_comm, List.head?_nil, List.head?_eq_none_iff] at h
    rw [h]
  | cons t us =>
    obtain ⟨more, rfl⟩ := List.head?_eq_some_iff.1 h.symm
    rfl

/-- With these tokens in front a phrase is read, whatever comes after the one that follows them. -/
def ReadsAs (F : List Token → Report α) (us x : List Token) (a : α) : Prop :=
  ∀ y : List Token, y.head? = x.head? → F (us ++ y) = ⟨.done a y, []⟩

/-- With these tokens in front the first error tells of the one that follows them. -/
def StopsAt (F : List Token → Report α) (us x : List Token) : Prop :=
  ∃ e, Blames e x ∧ ∀ y : List Token, y.head? = x.head? → (F (us ++ y)).Tells e

/-- After some of the tokens `ts` it is decided with one look at the next whether they begin with a phrase; and if
they do not, of those before that one `C` holds. -/
def Verdict (F : List Token → Report α) (C : List Token → Prop) (ts : List Token) : Prop :=
  ∃ us x, ts = us ++ x ∧ ((∃ a, ReadsAs F us x a) ∨ C us ∧ StopsAt F us x)

namespace Verdict

variable {F G : List Token → Report α} {C C₁ : List Token → Prop} {ts : List Token}

theorem head?_append {us x y : List Token} (h : y.head? = x.head?) : (us ++ y).head? = (us ++ x).head? := by
  rw [List.head?_append, List.head?_append, h]

theorem mono (h : Verdict F C₁ ts) (hC : ∀ us x, ts = us ++ x → C₁ us → C us) : Verdict F C ts := by
  obtain ⟨us, x, hts, hread | ⟨hus, hstop⟩⟩ := h
  · exact ⟨us, x, hts, .inl hread⟩
  · exact ⟨us, x, hts, .inr ⟨hC us x hts hus, hstop⟩⟩

theorem congr (h : ∀ y : List Token, y.head? = ts.head? → F y = G y) (hG : Verdict G C ts) : Verdict F C ts := by
  obtain ⟨us, x, rfl, hcases⟩ := hG
  refine ⟨us, x, rfl, hcases.imp ?_ ?_⟩
  · rintro ⟨a, hread⟩
    exact ⟨a, fun y hy => (h _ (head?_append hy)).trans (hread y hy)⟩
  · rintro ⟨hus, e, he, hstop⟩
    exact ⟨hus, e, he, fun y hy => h _ (head?_append hy) ▸ hstop y hy⟩

theorem done {a : α} : Verdict (fun ts => ⟨.done a ts, []⟩) C ts :=
  ⟨[], ts, rfl, .inl ⟨a, fun _ _ => rfl⟩⟩

theorem stops {e : SyntaxError} (hC : C []) (he : Blames e ts)
    (h : ∀ y : List Token, y.head? = ts.head? → (F y).Tells e) : Verdict F C ts :=
  ⟨[], ts, rfl, .inr ⟨hC, e, he, h⟩⟩

theorem cons {t : Token} (h : ∀ us, F (t :: us) = G us) (hG : Verdict G (fun us => C (t :: us)) ts) :
    Verdict F C (t :: ts) := by
  obtain ⟨us, x, rfl, hcases⟩ := hG
  refine ⟨t :: us, x, rfl, hcases.imp ?_ ?_⟩
  · rintro ⟨a, hread⟩
    exact ⟨a, fun y hy => (h _).trans (hread y hy)⟩
  · rintro ⟨hus, e, he, hstop⟩
    exact ⟨hus, e, he, fun y hy => (h (us ++ y)).symm ▸ hstop y hy⟩

/-- One phrase after another is decided where the first one is, or else where the second one is. -/
theorem andThen {H : α → List Token → Report β} (hF : Verdict F C₁ ts)
    (hC : ∀ us, C₁ us → C us)
    (hH : ∀ a us x, ts = us ++ x → F ts = ⟨.done a x, []⟩ → Verdict (H a) (fun vs => C (us ++ vs)) x) :
    Verdict (fun ts => (F ts).andThen H) C ts := by
  obtain ⟨us, x, rfl, ⟨a, hread⟩ | ⟨hus, e, he, hstop⟩⟩ := hF
  · obtain ⟨vs, z, rfl, hcases⟩ := hH a us x rfl (hread x rfl)
    have hnext (y : List Token) (hy : y.head? = z.head?) :
        (F (us ++ vs ++ y)).andThen H = H a (vs ++ y) := by
      rw [List.append_assoc, hread _ (head?_append hy)]
      rfl
    refine ⟨us ++ vs, z, (List.append_assoc ..).symm, hcases.imp ?_ ?_⟩
    · rintro ⟨b, hread⟩
      exact ⟨b, fun y hy => (hnext y hy).trans (hread y hy)⟩
    · rintro ⟨hvs, e, he, hstop⟩
      refine ⟨hvs, e, he, fun y hy => ?_⟩
      dsimp only
      rw [hnext y hy]
      exact hstop y hy
  · exact ⟨us, x, rfl, .inr ⟨hC us hus, e, he, fun y hy => (hstop y hy).andThen H⟩⟩

end Verdict

section combinators

variable {k l : List Token → Nat} {C C₁ : List Token → Prop} {ts : List Token}

theorem Attempt.verdict_andThen {F : (ts : List Token) → Attempt α (k ts)}
    {next : α → (ts : List Token) → Attempt β ts.length} {le : ∀ ts, k ts ≤ l ts}
    (hF : Verdict (fun ts => (F ts).report) C₁ ts) (hC : ∀ us, C₁ us → C us)
    (hnext : ∀ a us x, ts = us ++ x → (F ts).Yields a x →
      Verdict (fun ts => (next a ts).report) (fun vs => C (us ++ vs)) x) :
    Verdict (fun ts => ((F ts).andThen (fun a rest _ => next a rest) (le ts)).report) C ts := by
  simp only [report_andThen]
  exact hF.andThen hC fun a us x hts hdone => hnext a us x hts (yields_of_report hdone)

theorem Reading.verdict_andTry {F : (ts : List Token) → Reading α (k ts)}
    {next : α → (ts : List Token) → Attempt β ts.length} {le : ∀ ts, k ts ≤ l ts}
    (hF : Verdict (fun ts => (F ts).report) C₁ ts) (hC : ∀ us, C₁ us → C us)
    (hnext : ∀ a us x, ts = us ++ x → (F ts).Yields a x →
      Verdict (fun ts => (next a ts).report) (fun vs => C (us ++ vs)) x) :
    Verdict (fun ts => ((F ts).andTry (fun a rest _ => next a rest) (le ts)).report) C ts := by
  simp only [report_andTry]
  exact hF.andThen hC fun a us x hts hdone => hnext a us x hts (yields_of_report hdone)

theorem Reading.verdict_andThen {F : (ts : List Token) → Reading α (k ts)}
    {next : α → (ts : List Token) → Reading β ts.length} {le : ∀ ts, k ts ≤ l ts}
    (hF : Verdict (fun ts => (F ts).report) C₁ ts) (hC : ∀ us, C₁ us → C us)
    (hnext : ∀ a us x, ts = us ++ x → (F ts).Yields a x →
      Verdict (fun ts => (next a ts).report) (fun vs => C (us ++ vs)) x) :
    Verdict (fun ts => ((F ts).andThen (fun a rest _ => next a rest) (le ts)).report) C ts := by
  simp only [report_andThen]
  exact hF.andThen hC fun a us x hts hdone => hnext a us x hts (yields_of_report hdone)

/-- What is done with a phrase once it is read does not matter for where reading it is decided. -/
theorem Verdict.transfer {F : List Token → Report α} {G : List Token → Report β} {f : α → β}
    (hF : Verdict F C ts)
    (hread : ∀ ts a rest, F ts = ⟨.done a rest, []⟩ → G ts = ⟨.done (f a) rest, []⟩)
    (hlog : ∀ ts, (G ts).log = (F ts).log) : Verdict G C ts := by
  obtain ⟨us, x, rfl, ⟨a, hus⟩ | ⟨hus, e, he, hstop⟩⟩ := hF
  · exact ⟨us, x, rfl, .inl ⟨f a, fun y hy => hread _ _ _ (hus y hy)⟩⟩
  · refine ⟨us, x, rfl, .inr ⟨hus, e, he, fun y hy => ?_⟩⟩
    rw [Report.Tells, hlog]
    exact hstop y hy

theorem Attempt.verdict_map {F : (ts : List Token) → Attempt α (k ts)} {f : α → β}
    (hF : Verdict (fun ts => (F ts).report) C ts) : Verdict (fun ts => ((F ts).map f).report) C ts := by
  refine hF.transfer (fun ts a rest hdone => (yields_map.2 ⟨a, yields_of_report hdone, rfl⟩).report) fun ts => ?_
  obtain ⟨_ | _ | _, log, taken, short⟩ := F ts <;> rfl

theorem Reading.verdict_map {F : (ts : List Token) → Reading α (k ts)} {f : α → β}
    (hF : Verdict (fun ts => (F ts).report) C ts) : Verdict (fun ts => ((F ts).map f).report) C ts :=
  hF.transfer (fun _ a _ hdone => (yields_map.2 ⟨a, yields_of_report hdone, rfl⟩).report) fun _ => rfl

theorem Attempt.verdict_past {F : (ts : List Token) → Attempt α (k ts)}
    (hF : Verdict (fun ts => (F ts).report) C ts) : Verdict (fun ts => (F ts).past.report) C ts :=
  hF

theorem Reading.verdict_past {F : (ts : List Token) → Reading α (k ts)}
    (hF : Verdict (fun ts => (F ts).report) C ts) : Verdict (fun ts => (F ts).past.report) C ts :=
  hF

theorem Attempt.verdict_orSkip {F : (ts : List Token) → Attempt α (k ts)}
    (hF : Verdict (fun ts => (F ts).report) C ts) : Verdict (fun ts => (F ts).orSkip.report) C ts := by
  refine hF.transfer (fun ts a rest hdone => (yields_of_report hdone).orSkip.report) fun ts => ?_
  obtain ⟨_ | _ | _, log, taken, short⟩ := F ts <;> rfl

theorem Attempt.verdict_orResume {F : (ts : List Token) → Attempt α (k ts)}
    (hF : Verdict (fun ts => (F ts).report) C ts) : Verdict (fun ts => (F ts).orResume.report) C ts := by
  refine hF.transfer (fun ts a rest hdone => (yields_of_report hdone).orResume.report) fun ts => ?_
  obtain ⟨_ | _ | _, log, taken, short⟩ := F ts <;> rfl

theorem Attempt.verdict_doneWith {a : α} (h : front ts ≠ .eof) :
    Verdict (fun ts => (doneWith a ts).report) C ts := by
  cases ts with
  | nil => exact absurd rfl h
  | cons t ts => exact .cons (fun _ => rfl) .done

theorem Attempt.verdict_ite {want : Kind} {F G : (ts : List Token) → Attempt α (k ts)}
    (hF : front ts = want → Verdict (fun ts => (F ts).report) C ts)
    (hG : front ts ≠ want → Verdict (fun ts => (G ts).report) C ts) :
    Verdict (fun ts => (if front ts = want then F ts else G ts).report) C ts := by
  by_cases h : front ts = want
  · refine .congr (fun y hy => ?_) (hF h)
    rw [if_pos ((front_eq_of_head? hy).trans h)]
  · refine .congr (fun y hy => ?_) (hG h)
    rw [if_neg (front_eq_of_head? hy ▸ h)]

/-- A token that is wanted can only be missing in front. -/
theorem verdict_expect {want : Kind} {next : Token → (ts : List Token) → Attempt α ts.length} (hC : C [])
    (hnext : ∀ t rest, ts = t :: rest → t.kind = want →
      Verdict (fun ts => (next t ts).report) (fun us => C (t :: us)) rest) :
    Verdict (fun ts => (expect want ts fun t rest _ => next t rest).report) C ts := by
  cases ts with
  | nil =>
    refine .stops hC (.unexpected want) fun y hy => ?_
    obtain rfl := List.head?_eq_none_iff.1 hy
    rfl
  | cons t rest =>
    by_cases ht : t.kind = want
    · refine .cons (fun us => ?_) (hnext t rest rfl ht)
      rw [expect, if_pos ht]
      rfl
    · refine .stops hC (.unexpected want) fun y hy => ?_
      obtain ⟨more, rfl⟩ := List.head?_eq_some_iff.1 hy
      rw [expect, if_neg ht]
      rfl

theorem verdict_ended (s : Stmt) : Verdict (fun ts => (ended s ts).report) C ts := by
  refine .congr (fun y _ => congrArg Attempt.report (ended.eq_def s y)) ?_
  refine Attempt.verdict_ite (fun h => Attempt.verdict_doneWith ?_) fun _ => .done
  rw [h]
  decide

end combinators

end Monkey.Parse
