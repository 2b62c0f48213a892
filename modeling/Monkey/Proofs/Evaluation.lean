import Monkey.Proofs.Depth

namespace Monkey

namespace Traced
open Eval
open Guarded (plain result)

variable {α β : Type} {m m₁ m₂ : Machine} {seen rest : List Event}

/-- From some depth on the action has this result, with these events. -/
def Ends (x : Nat → Traced α) (m : Machine) (seen : List Event) (a : α) (m' : Machine) : Prop :=
  ∃ least, ∀ depth, least ≤ depth → x depth m = (seen, some (a, m'))

theorem ends_of_eq {x : Traced α} {a : α} (h : x m = (seen, some (a, m₁))) : Ends (fun _ => x) m seen a m₁ :=
  ⟨0, fun _ _ => h⟩

theorem ends_pure (a : α) (m : Machine) : Ends (fun _ => pure a) m [] a m :=
  ends_of_eq rfl

theorem Ends.bind {x : Nat → Traced α} {f : Nat → α → Traced β} {a : α} {b : β} (hx : Ends x m seen a m₁)
    (hf : Ends (fun depth => f depth a) m₁ rest b m₂) :
    Ends (fun depth => x depth >>= f depth) m (seen ++ rest) b m₂ := by
  obtain ⟨least, hx⟩ := hx
  obtain ⟨least', hf⟩ := hf
  refine ⟨max least least', fun depth hdepth => bind_eq_some.2 ⟨seen, a, m₁, rest, ?_, ?_, rfl⟩⟩
  · exact hx depth (Nat.le_trans (Nat.le_max_left ..) hdepth)
  · exact hf depth (Nat.le_trans (Nat.le_max_right ..) hdepth)

theorem Ends.noting {x : Nat → Traced α} {a : α} (h : Ends x m seen a m₁) (event : α → Event) :
    Ends (fun depth => noting event (x depth)) m (seen ++ [event a]) a m₁ :=
  h.bind (ends_of_eq rfl)

/-- The events may be told in another way. -/
theorem Ends.of_seen {x : Nat → Traced α} {a : α} (h : Ends x m seen a m₁) (hseen : seen = rest) :
    Ends x m rest a m₁ :=
  hseen ▸ h

section guarded

variable {x : Nat → ExceptT Value Traced α} {f : Nat → α → ExceptT Value Traced β}

theorem Ends.run_bind {a : α} {out : Except Value β} (hx : Ends (fun depth => (x depth).run) m seen (.ok a) m₁)
    (hf : Ends (fun depth => (f depth a).run) m₁ rest out m₂) :
    Ends (fun depth => (x depth >>= f depth).run) m (seen ++ rest) out m₂ :=
  Ends.bind hx hf

/-- A signal leaves at once, whatever was to come. -/
theorem Ends.run_bind_error {v : Value} (hx : Ends (fun depth => (x depth).run) m seen (.error v) m₁) :
    Ends (fun depth => (x depth >>= f depth).run) m seen (.error v) m₁ :=
  (Ends.bind (f := fun depth => ExceptT.bindCont (f depth)) hx (ends_pure (Except.error v) m₁)).of_seen
    (List.append_nil seen)

theorem Ends.run_lift {y : Nat → Traced α} {a : α} (hy : Ends y m seen a m₁) :
    Ends (fun depth => ((y depth : Traced α) : ExceptT Value Traced α).run) m seen (.ok a) m₁ :=
  (Ends.bind (f := fun _ a => pure (Except.ok a)) hy (ends_pure (Except.ok a) m₁)).of_seen (List.append_nil seen)

theorem ends_run_pure (a : α) (m : Machine) :
    Ends (fun _ => (pure a : ExceptT Value Traced α).run) m [] (.ok a) m :=
  ends_pure (Except.ok a) m

theorem ends_run_before (event : Event) (a : α) (m : Machine) :
    Ends (fun _ => (Guarded.before event (pure a) : ExceptT Value Traced α).run) m [event] (.ok a) m :=
  ends_of_eq rfl

theorem ends_run_throw (v : Value) (m : Machine) :
    Ends (fun _ => (throw v : ExceptT Value Traced α).run) m [] (.error v) m :=
  ends_pure (Except.error v) m

variable {y : Nat → Traced Value} {v : Value}

theorem Ends.run_plain (hy : Ends y m seen v m₁) (hv : v.isSignal = false) :
    Ends (fun depth => (plain (y depth)).run) m seen (.ok v) m₁ := by
  refine (hy.run_lift.run_bind ?_).of_seen (List.append_nil seen)
  rw [hv]
  exact ends_run_pure v m₁

theorem Ends.run_plain_signal (hy : Ends y m seen v m₁) (hv : v.isSignal) :
    Ends (fun depth => (plain (y depth)).run) m seen (.error v) m₁ := by
  refine (hy.run_lift.run_bind ?_).of_seen (List.append_nil seen)
  rw [hv]
  exact ends_run_throw v m₁

theorem Ends.result {g : Nat → ExceptT Value Traced Value}
    (h : Ends (fun depth => (g depth).run) m seen (.ok v) m₁) :
    Ends (fun depth => result (g depth)) m seen v m₁ :=
  (h.bind (ends_pure v m₁)).of_seen (List.append_nil seen)

theorem Ends.result_error {g : Nat → ExceptT Value Traced Value}
    (h : Ends (fun depth => (g depth).run) m seen (.error v) m₁) :
    Ends (fun depth => Guarded.result (g depth)) m seen v m₁ :=
  (h.bind (ends_pure v m₁)).of_seen (List.append_nil seen)

end guarded

end Traced

open Traced

/-- With enough depth the expression has this value, and its evaluation these events. -/
def Evaluates (scope : Scope) (e : Expr) (m : Machine) (seen : List Event) (v : Value) (m' : Machine) : Prop :=
  ∃ depth, Traced.eval depth scope e m = (seen, some (v, m'))

section evaluates

variable {scope : Scope} {e : Expr} {m m₁ m₂ : Machine} {seen seen' : List Event} {v v' : Value}

theorem Evaluates.ends (h : Evaluates scope e m seen v m₁) :
    Ends (fun depth => Traced.eval depth scope e) m seen v m₁ := by
  obtain ⟨depth, h⟩ := h
  exact ⟨depth, fun _ hdepth => within_eval hdepth scope e _ _ _ h⟩

theorem Evaluates.of_expression
    (h : Ends (fun depth => Eval.expression (Traced.eval depth) scope e) m seen v m₁) :
    Evaluates scope e m (seen ++ [.gave v]) v m₁ := by
  obtain ⟨least, h⟩ := h
  refine ⟨least + 1, ?_⟩
  exact bind_eq_some.2 ⟨seen, v, m₁, [.gave v], h least (Nat.le_refl _), rfl, rfl⟩

/-- Evaluation has one result at most, and one history. -/
theorem Evaluates.unique (h : Evaluates scope e m seen v m₁) (h' : Evaluates scope e m seen' v' m₂) :
    seen = seen' ∧ v = v' ∧ m₁ = m₂ := by
  obtain ⟨least, h⟩ := h.ends
  obtain ⟨least', h'⟩ := h'.ends
  have hsame := (h _ (Nat.le_max_left least least')).symm.trans (h' _ (Nat.le_max_right least least'))
  simpa using hsame

/-- It is what the evaluator gives, at each depth at which that has a result. -/
theorem Evaluates.eval_eq (h : Evaluates scope e m seen v m₁) {depth : Nat} {r : Value × Machine}
    (hr : eval depth scope e m = some r) : r = (v, m₁) := by
  rw [← action_eval] at hr
  have h' : Evaluates scope e m (Traced.eval depth scope e m).1 r.1 r.2 := ⟨depth, Prod.ext rfl hr⟩
  obtain ⟨-, hv, hm⟩ := h'.unique h
  exact Prod.ext hv hm

theorem exists_evaluates_iff :
    (∃ seen, Evaluates scope e m seen v m₁) ↔ ∃ depth, eval depth scope e m = some (v, m₁) := by
  constructor
  · rintro ⟨seen, depth, h⟩
    exact ⟨depth, by rw [← action_eval, action, h]⟩
  · rintro ⟨depth, h⟩
    rw [← action_eval] at h
    exact ⟨(Traced.eval depth scope e m).1, depth, Prod.ext rfl h⟩

end evaluates

section operators

variable {scope : Scope} {m m₁ m₂ : Machine} {seen rest : List Event} {a b : Value}

theorem evaluates_int (scope : Scope) (n : Int64) (m : Machine) :
    Evaluates scope (.int n) m [.gave (.integer n)] (.integer n) m :=
  ⟨1, rfl⟩

theorem evaluates_bool (scope : Scope) (b : Bool) (m : Machine) :
    Evaluates scope (.bool b) m [.gave (.boolean b)] (.boolean b) m :=
  ⟨1, rfl⟩

theorem Evaluates.unary {right : Expr} (h : Evaluates scope right m seen a m₁) (ha : a.isSignal = false) (op : Token) :
    Evaluates scope (.unary op right) m (seen ++ [.unary a] ++ [.gave (a.unary op)]) (a.unary op) m₁ := by
  exact .of_expression ((h.ends.run_plain ha).run_bind (ends_run_before (.unary a) (a.unary op) m₁)).result

theorem Evaluates.binary {left right : Expr} (h : Evaluates scope left m seen a m₁) (ha : a.isSignal = false)
    (h' : Evaluates scope right m₁ rest b m₂) (hb : b.isSignal = false) (op : Token) :
    Evaluates scope (.binary left op right) m (seen ++ (rest ++ [.binary a b]) ++ [.gave (.binary op a b)])
      (.binary op a b) m₂ := by
  refine .of_expression ((h.ends.run_plain ha).run_bind ((h'.ends.run_plain hb).run_bind ?_)).result
  exact ends_run_before (.binary a b) (Value.binary op a b) m₂

theorem Evaluates.indexed {left index : Expr} (h : Evaluates scope left m seen a m₁) (ha : a.isSignal = false)
    (h' : Evaluates scope index m₁ rest b m₂) (hb : b.isSignal = false) :
    Evaluates scope (.index left index) m (seen ++ (rest ++ [.indexed a b]) ++ [.gave (a.indexed b)])
      (a.indexed b) m₂ := by
  refine .of_expression ((h.ends.run_plain ha).run_bind ((h'.ends.run_plain hb).run_bind ?_)).result
  exact ends_run_before (.indexed a b) (a.indexed b) m₂

end operators

/-- From left to right, the expressions have these values, and none is a signal. -/
inductive ValuesOf (scope : Scope) : List Expr → Machine → List Event → List Value → Machine → Prop
  | nil {m : Machine} : ValuesOf scope [] m [] [] m
  | cons {e : Expr} {es : List Expr} {m m₁ m₂ : Machine} {seen rest : List Event} {v : Value}
      {vs : List Value} :
      Evaluates scope e m seen v m₁ → v.isSignal = false → ValuesOf scope es m₁ rest vs m₂ →
      ValuesOf scope (e :: es) m (seen ++ rest) (v :: vs) m₂

/-- With enough depth the statement gives this value. -/
def Performs (scope : Scope) (s : Stmt) (m : Machine) (seen : List Event) (v : Value) (m' : Machine) : Prop :=
  ∃ depth, Eval.statement (Traced.eval depth) scope s m = (seen, some (v, m'))

/-- The statements are performed one after the other, and none gives a signal. -/
inductive Performed (scope : Scope) : List Stmt → Machine → List Event → Machine → Prop
  | nil {m : Machine} : Performed scope [] m [] m
  | cons {s : Stmt} {stmts : List Stmt} {m m₁ m₂ : Machine} {seen rest : List Event} {v : Value} :
      Performs scope s m seen v m₁ → v.isSignal = false → Performed scope stmts m₁ rest m₂ →
      Performed scope (s :: stmts) m (seen ++ rest) m₂

/-- From left to right, the pairs have these keys and values. All keys can be keys of a hash, and no value is a
signal. -/
inductive PairsOf (scope : Scope) :
    List (Expr × Expr) → Machine → List Event → List (Value × Value) → Machine → Prop
  | nil {m : Machine} : PairsOf scope [] m [] [] m
  | cons {k e : Expr} {pairs : List (Expr × Expr)} {m m₁ m₂ m₃ : Machine} {first second rest : List Event}
      {key v : Value} {found : List (Value × Value)} :
      Evaluates scope k m first key m₁ → key.hashKey?.isSome → Evaluates scope e m₁ second v m₂ →
      v.isSignal = false → PairsOf scope pairs m₂ rest found m₃ →
      PairsOf scope ((k, e) :: pairs) m (first ++ (second ++ rest)) ((key, v) :: found) m₃

/-- The pair ends the making of a hash: its key or its value is a signal, or its key cannot be one. -/
inductive PairStops (scope : Scope) (k e : Expr) : Machine → List Event → Value → Machine → Prop
  | key {m m₁ : Machine} {seen : List Event} {g : Value} :
      Evaluates scope k m seen g m₁ → g.isSignal → PairStops scope k e m seen g m₁
  /-- Its value is not evaluated then. -/
  | unusable {m m₁ : Machine} {seen : List Event} {key : Value} :
      Evaluates scope k m seen key m₁ → key.isSignal = false → key.hashKey? = none →
      PairStops scope k e m seen (.error (.notHashable key.type)) m₁
  | value {m m₁ m₂ : Machine} {seen rest : List Event} {key g : Value} :
      Evaluates scope k m seen key m₁ → key.hashKey?.isSome → Evaluates scope e m₁ rest g m₂ → g.isSignal →
      PairStops scope k e m (seen ++ rest) g m₂

/-- The entries after these pairs are added, one after the other. -/
def Entries.addAll (acc : Entries) : List (Value × Value) → Entries
  | [] => acc
  | (key, v) :: found => addAll (key.hashKey?.elim acc fun k => acc.insert k key v) found

theorem Value.isSignal_of_hashKey? {v : Value} (h : v.hashKey?.isSome) : v.isSignal = false := by
  cases v <;> first | rfl | exact absurd h Bool.false_ne_true

section sequences

variable {scope : Scope} {m m₁ m₂ : Machine} {seen rest : List Event}

theorem Performs.ends {s : Stmt} {v : Value} (h : Performs scope s m seen v m₁) :
    Ends (fun depth => Eval.statement (Traced.eval depth) scope s) m seen v m₁ := by
  obtain ⟨depth, h⟩ := h
  exact ⟨depth, fun _ hdepth => within_statement (fun scope e => within_eval hdepth scope e) scope s _ _ _ h⟩

theorem Performs.eval_eq {s : Stmt} {v : Value} (h : Performs scope s m seen v m₁) :
    ∃ depth, Eval.statement (eval depth) scope s m = some (v, m₁) := by
  obtain ⟨depth, h⟩ := h
  exact ⟨depth, by rw [← action_statement (action_eval depth), action, h]⟩

/-- After expressions with values, it depends on the others what is made of them all. -/
theorem ValuesOf.ends_append {before es : List Expr} {vs : List Value} {out : Except Value (List Value)}
    (h : ValuesOf scope before m seen vs m₁)
    (hes : Ends (fun depth => (Eval.values (Traced.eval depth) scope es).run) m₁ rest out m₂) :
    Ends (fun depth => (Eval.values (Traced.eval depth) scope (before ++ es)).run) m (seen ++ rest)
      (out.map (vs ++ ·)) m₂ := by
  induction h with
  | nil =>
    cases out <;> exact hes
  | @cons e es' m m₁' m₂' seen₁ rest₁ v vs' hv hplain hvs ih =>
    rw [List.append_assoc]
    refine (hv.ends.run_plain hplain).run_bind ?_
    have hmore := ih hes
    cases out with
    | error g => exact hmore.run_bind_error
    | ok ws =>
      exact (hmore.run_bind (f := fun _ ws => pure (v :: ws)) (ends_run_pure _ _)).of_seen (List.append_nil _)

theorem ValuesOf.ends {es : List Expr} {vs : List Value} (h : ValuesOf scope es m seen vs m₁) :
    Ends (fun depth => (Eval.values (Traced.eval depth) scope es).run) m seen (.ok vs) m₁ := by
  have hnil : Ends (fun depth => (Eval.values (Traced.eval depth) scope []).run) m₁ [] (.ok []) m₁ :=
    ends_run_pure [] m₁
  have hall := h.ends_append hnil
  rwa [List.append_nil, List.append_nil, Except.map, List.append_nil] at hall

theorem ValuesOf.evaluates {es : List Expr} {vs : List Value} (h : ValuesOf scope es m seen vs m₁) :
    let made : Value := .array m₁.marks vs
    let m₂ := { m₁ with marks := m₁.marks + 1 }
    Evaluates scope (.array es) m (seen ++ [.reached m₂] ++ [.gave made]) made m₂ := by
  intro made m₂
  have hmake : Ends (fun _ => step (Action.newArray vs)) m₁ [.reached m₂] made m₂ := ends_of_eq rfl
  exact Evaluates.of_expression
    (h.ends.run_bind (f := fun _ vs => (step (Action.newArray vs) : Traced Value)) hmake.run_lift).result

theorem Performed.ends_append {before stmts : List Stmt} {v : Value} (h : Performed scope before m seen m₁)
    (hstmts : ∀ last, Ends (fun depth => Eval.block (Traced.eval depth) scope stmts last) m₁ rest v m₂)
    (last : Value) :
    Ends (fun depth => Eval.block (Traced.eval depth) scope (before ++ stmts) last) m (seen ++ rest) v m₂ := by
  induction h generalizing last with
  | nil => exact hstmts last
  | @cons s stmts' m m₁' m₂' seen₁ rest₁ w hs hplain _ ih =>
    rw [List.append_assoc]
    refine hs.ends.bind ?_
    rw [hplain]
    exact ih hstmts w

theorem PairsOf.ends_append {before pairs : List (Expr × Expr)} {found : List (Value × Value)}
    {out : Except Value Entries} (h : PairsOf scope before m seen found m₁) (acc : Entries)
    (hpairs : Ends (fun depth => (Eval.entries (Traced.eval depth) scope pairs (acc.addAll found)).run)
      m₁ rest out m₂) :
    Ends (fun depth => (Eval.entries (Traced.eval depth) scope (before ++ pairs) acc).run) m (seen ++ rest)
      out m₂ := by
  induction h generalizing acc with
  | nil => exact hpairs
  | @cons k e pairs' m m₁' m₂' m₃' first second rest₁ key v found' hkey hk hv hplain _ ih =>
    obtain ⟨hashKey, hhash⟩ := Option.isSome_iff_exists.1 hk
    rw [List.append_assoc, List.append_assoc]
    refine (hkey.ends.run_plain (Value.isSignal_of_hashKey? hk)).run_bind ?_
    rw [hhash]
    refine (hv.ends.run_plain hplain).run_bind (ih _ ?_)
    rwa [Entries.addAll, hhash] at hpairs

theorem PairsOf.ends {pairs : List (Expr × Expr)} {found : List (Value × Value)}
    (h : PairsOf scope pairs m seen found m₁) :
    Ends (fun depth => (Eval.entries (Traced.eval depth) scope pairs []).run) m seen (.ok (Entries.addAll [] found))
      m₁ := by
  have hnil : Ends (fun depth => (Eval.entries (Traced.eval depth) scope [] (Entries.addAll [] found)).run)
      m₁ [] (.ok (Entries.addAll [] found)) m₁ :=
    ends_run_pure _ m₁
  have hall := h.ends_append [] hnil
  rwa [List.append_nil, List.append_nil] at hall

theorem PairsOf.evaluates {pairs : List (Expr × Expr)} {found : List (Value × Value)}
    (h : PairsOf scope pairs m seen found m₁) :
    let made : Value := .hash m₁.marks (Entries.addAll [] found)
    let m₂ := { m₁ with marks := m₁.marks + 1 }
    Evaluates scope (.hash pairs) m (seen ++ [.reached m₂] ++ [.gave made]) made m₂ := by
  intro made m₂
  have hmake : Ends (fun _ => step (Action.newHash (Entries.addAll [] found))) m₁ [.reached m₂] made m₂ :=
    ends_of_eq rfl
  exact Evaluates.of_expression
    (h.ends.run_bind (f := fun _ es => (step (Action.newHash es) : Traced Value)) hmake.run_lift).result

theorem PairStops.ends {k e : Expr} {g : Value} (h : PairStops scope k e m seen g m₁)
    (pairs : List (Expr × Expr)) (acc : Entries) :
    Ends (fun depth => (Eval.entries (Traced.eval depth) scope ((k, e) :: pairs) acc).run) m seen (.error g) m₁ := by
  cases h with
  | key hk hg => exact (hk.ends.run_plain_signal hg).run_bind_error
  | unusable hk hplain hkey =>
    refine ((hk.ends.run_plain hplain).run_bind ?_).of_seen (List.append_nil seen)
    rw [hkey]
    exact ends_run_throw _ m₁
  | value hk hkey he hg =>
    obtain ⟨hashKey, hhash⟩ := Option.isSome_iff_exists.1 hkey
    refine (hk.ends.run_plain (Value.isSignal_of_hashKey? hkey)).run_bind ?_
    rw [hhash]
    exact (he.ends.run_plain_signal hg).run_bind_error

theorem PairsOf.stops {before : List (Expr × Expr)} {k e : Expr} {found : List (Value × Value)} {g : Value}
    (h : PairsOf scope before m seen found m₁) (after : List (Expr × Expr))
    (hstop : PairStops scope k e m₁ rest g m₂) :
    Ends (fun depth => (Eval.entries (Traced.eval depth) scope (before ++ (k, e) :: after) []).run) m (seen ++ rest)
      (.error g) m₂ :=
  h.ends_append [] (hstop.ends after _)

end sequences

end Monkey
