import Monkey.Eval

namespace Monkey

/-- Programs one after the other in one scope. -/
def Eval.programs {M : Type → Type} [Monad M] [Host M] (ev : Scope → Expr → M Value) (scope : Scope) :
    List (List Stmt) → M (List Value)
  | [] => return []
  | stmts :: rest => do
    let v ← program ev scope stmts
    let vs ← programs ev scope rest
    return v :: vs

/-- Programs one after the other in a global scope made for them. -/
def session (depth : Nat) (programs : List (List Stmt)) : Action (List Value) := do
  let scope ← Action.newGlobal
  Eval.programs (eval depth) scope programs

/-- An action together with the events of its run, which are there even if it has no result. -/
def Traced (α : Type) := Machine → List Event × Option (α × Machine)

namespace Traced

instance : Monad Traced where
  pure a m := ([], some (a, m))
  bind x f m :=
    match x m with
    | (seen, none) => (seen, none)
    | (seen, some (a, m')) => (seen ++ (f a m').1, (f a m').2)

variable {α β : Type}

/-- The action without its events. -/
def action (x : Traced α) : Action α :=
  fun m => (x m).2

def note (event : Event) : Traced Unit :=
  fun m => ([event], some ((), m))

/-- Does one thing and notes the machine it leaves. -/
def step (x : Action α) : Traced α :=
  fun m =>
    match x m with
    | none => ([], none)
    | some (a, m') => ([.reached m'], some (a, m'))

/-- Notes the result of an action. -/
def noting (event : α → Event) (x : Traced α) : Traced α := do
  let a ← x
  note (event a)
  return a

instance : Host Traced where
  step := step
  before event x := note event >>= fun _ => x
  noting := noting

def eval : Nat → Scope → Expr → Traced Value
  | 0, _, _ => fun _ => ([], none)
  | depth + 1, scope, e => noting .gave (Eval.expression (eval depth) scope e)

def session (depth : Nat) (inputs : List (List Stmt)) : Traced (List Value) := do
  let scope ← step Action.newGlobal
  Eval.programs (eval depth) scope inputs

-- Without its events, every part does what the evaluator does

section action

variable {α β : Type}

theorem action_pure (a : α) : action (pure a) = pure a :=
  rfl

theorem bind_of_none {x : Traced α} {f : α → Traced β} {m : Machine} {seen : List Event}
    (h : x m = (seen, none)) : (x >>= f) m = (seen, none) := by
  simp only [Bind.bind, h]

theorem bind_of_some {x : Traced α} {f : α → Traced β} {m m' : Machine} {seen : List Event} {a : α}
    (h : x m = (seen, some (a, m'))) : (x >>= f) m = (seen ++ (f a m').1, (f a m').2) := by
  simp only [Bind.bind, h]

instance : LawfulMonad Traced := by
  refine LawfulMonad.mk' Traced (fun x => ?_) (fun _ _ => rfl) (fun x f g => ?_)
  · funext m
    rcases h : x m with ⟨seen, _ | ⟨a, m'⟩⟩
    · exact bind_of_none h
    · exact (bind_of_some h).trans (congrArg (·, some (a, m')) (List.append_nil seen))
  · funext m
    rcases h : x m with ⟨seen, _ | ⟨a, m'⟩⟩
    · rw [bind_of_none (bind_of_none h), bind_of_none h]
    · rw [bind_of_some h]
      rcases h' : f a m' with ⟨more, _ | ⟨b, m''⟩⟩
      · rw [bind_of_none ((bind_of_some h).trans (by rw [h'])), bind_of_none h']
      · rw [bind_of_some ((bind_of_some h).trans (by rw [h'])), bind_of_some h', List.append_assoc]

theorem action_bind (x : Traced α) (f : α → Traced β) :
    (x >>= f).action = x.action >>= fun a => (f a).action := by
  funext m
  unfold action
  change _ = ((x m).2).bind fun p => (f p.1 p.2).2
  rcases h : x m with ⟨seen, _ | ⟨a, m'⟩⟩
  · rw [bind_of_none h]
    rfl
  · rw [bind_of_some h]
    rfl

theorem action_step (x : Action α) : action (Host.step x) = x := by
  funext m
  change (step x m).2 = x m
  unfold step
  rcases x m with _ | ⟨a, m'⟩ <;> rfl

theorem action_before (event : Event) (x : Traced α) : action (Host.before event x) = x.action :=
  rfl

theorem action_noting (event : α → Event) (x : Traced α) : action (Host.noting event x) = x.action := by
  change action (x >>= fun a => note (event a) >>= fun _ => pure a) = _
  rw [action_bind]
  funext m
  change ((x m).2).bind _ = (x m).2
  rcases (x m).2 with _ | ⟨a, m'⟩ <;> rfl

/-- The guarded evaluation without its events. -/
def guarded (g : ExceptT Value Traced α) : Guarded α :=
  action g.run

theorem guarded_pure (a : α) : guarded (pure a) = pure a :=
  rfl

theorem guarded_throw (v : Value) : guarded (throw v : ExceptT Value Traced α) = throw v :=
  rfl

theorem guarded_bind (g : ExceptT Value Traced α) (f : α → ExceptT Value Traced β) :
    guarded (g >>= f) = guarded g >>= fun a => guarded (f a) := by
  change action (g.run >>= ExceptT.bindCont f) = guarded g >>= fun a => guarded (f a)
  rw [action_bind]
  apply congrArg (g.run.action >>= ·)
  funext out
  rcases out with v | a <;> rfl

theorem guarded_lift (x : Traced α) : guarded (x : ExceptT Value Traced α) = (x.action : Guarded α) := by
  change action (Except.ok <$> x) = Except.ok <$> x.action
  exact action_bind x _

theorem guarded_before (event : Event) (g : ExceptT Value Traced α) :
    guarded (Guarded.before event g) = Guarded.before event (guarded g) :=
  rfl

theorem guarded_plain (x : Traced Value) : guarded (Guarded.plain x) = Guarded.plain x.action := by
  unfold Guarded.plain
  rw [guarded_bind, guarded_lift]
  apply congrArg
  funext v
  split <;> rfl

theorem action_result (g : ExceptT Value Traced Value) :
    (Guarded.result g).action = Guarded.result (guarded g) := by
  unfold Guarded.result
  rw [action_bind]
  apply congrArg
  funext out
  rcases out with v | v <;> rfl

end action

section erasure

variable {tev : Scope → Expr → Traced Value} {ev : Scope → Expr → Action Value}
  (hev : ∀ scope e, (tev scope e).action = ev scope e)
include hev

theorem guarded_values (scope : Scope) (es : List Expr) :
    guarded (Eval.values tev scope es) = Eval.values ev scope es := by
  induction es with
  | nil => rfl
  | cons e es ih =>
    simp only [Eval.values, guarded_bind, guarded_plain, hev, ih, guarded_pure]

theorem guarded_entries (scope : Scope) (pairs : List (Expr × Expr)) (acc : Entries) :
    guarded (Eval.entries tev scope pairs acc) = Eval.entries ev scope pairs acc := by
  induction pairs generalizing acc with
  | nil => rfl
  | cons pair pairs ih =>
    simp only [Eval.entries, guarded_bind, guarded_plain, hev]
    apply congrArg
    funext key
    cases key.hashKey? with
    | none => exact guarded_throw _
    | some hashKey => simp only [guarded_bind, guarded_plain, hev, ih]

theorem action_statement (scope : Scope) (s : Stmt) :
    (Eval.statement tev scope s).action = Eval.statement ev scope s := by
  cases s with
  | bind name e =>
    simp only [Eval.statement, action_noting, action_result, guarded_bind, guarded_plain, hev, guarded_lift,
      action_step, guarded_pure]
    rfl
  | give e =>
    simp only [Eval.statement, action_noting, action_result, guarded_bind, guarded_plain, hev, guarded_pure]
    rfl
  | expr e => exact hev scope e

theorem action_block (scope : Scope) (stmts : List Stmt) (last : Value) :
    (Eval.block tev scope stmts last).action = Eval.block ev scope stmts last := by
  induction stmts generalizing last with
  | nil => rfl
  | cons s stmts ih =>
    unfold Eval.block at ih ⊢
    simp only [Eval.sequence, action_bind, action_statement hev]
    apply congrArg
    funext v
    split
    · rfl
    · exact ih v

theorem action_program (scope : Scope) (stmts : List Stmt) :
    (Eval.program tev scope stmts).action = Eval.program ev scope stmts := by
  simp only [Eval.program, action_noting, action_bind, action_block hev, action_pure]
  rfl

theorem action_programs (scope : Scope) (inputs : List (List Stmt)) :
    (Eval.programs tev scope inputs).action = Eval.programs ev scope inputs := by
  induction inputs with
  | nil => rfl
  | cons stmts rest ih =>
    simp only [Eval.programs, action_bind, action_program hev, ih, action_pure]

omit hev in
theorem action_bindAll (scope : Scope) (params : List Ident) (args : List Value) :
    action (Eval.bindAll scope params args) = Eval.bindAll scope params args := by
  induction params generalizing args with
  | nil => rfl
  | cons p ps ih =>
    cases args with
    | nil => rfl
    | cons v vs =>
      simp only [Eval.bindAll, action_bind, action_step, ih]
      rfl

theorem action_apply (f : Value) (args : List Value) :
    (Eval.apply tev f args).action = Eval.apply ev f args := by
  unfold Eval.apply Eval.call
  rw [action_before, action_noting]
  cases f with
  | function mark c =>
    simp only
    split
    · rfl
    · simp only [action_bind, action_step, action_bindAll, action_block hev, action_pure]
      rfl
  | builtinAt ref b => exact (action_before _ _).trans (action_step _)
  | _ => rfl

theorem action_expression (scope : Scope) (e : Expr) :
    (Eval.expression tev scope e).action = Eval.expression ev scope e := by
  unfold Eval.expression
  cases e with
  | ident id => exact action_step _
  | int n | string s | bool b => rfl
  | unary op right | binary left op right | index left index =>
    simp only [Eval.form, action_result, guarded_bind, guarded_plain, hev, guarded_before, guarded_pure]
  | cond test yes no =>
    simp only [Eval.form, action_result, guarded_bind, guarded_plain, hev]
    apply congrArg
    apply congrArg
    funext v
    split
    · rw [guarded_lift, action_block hev]
    · split
      · rw [guarded_lift, action_block hev]
      · rfl
  | function params body => exact action_step _
  | call callee args =>
    simp only [Eval.form, action_result, guarded_bind, guarded_plain, hev, guarded_values hev, guarded_lift,
      action_apply hev]
  | array elements =>
    simp only [Eval.form, action_result, guarded_bind, guarded_values hev, guarded_lift, action_step]
    rfl
  | hash pairs =>
    simp only [Eval.form, action_result, guarded_bind, guarded_entries hev, guarded_lift, action_step]
    rfl

end erasure

/-- The events are those of the evaluator itself. -/
theorem action_eval (depth : Nat) (scope : Scope) (e : Expr) :
    (eval depth scope e).action = Monkey.eval depth scope e := by
  induction depth generalizing scope e with
  | zero => rfl
  | succ depth ih =>
    exact (action_noting _ _).trans (action_expression ih scope e)

theorem action_session (depth : Nat) (inputs : List (List Stmt)) :
    (session depth inputs).action = Monkey.session depth inputs := by
  unfold session Monkey.session
  rw [action_bind]
  simp only [action_programs (action_eval depth)]
  exact congrArg (· >>= _) (action_step _)

end Traced

end Monkey
