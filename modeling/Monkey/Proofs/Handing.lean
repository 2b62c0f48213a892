import Monkey.Proofs.Layers
import Monkey.Proofs.Objects

namespace Monkey

open Traced

/-- The function picks this value out of the array that it is given. -/
inductive Builtin.Picks : Builtin → List Value → Value → Prop
  | first {mark : Nat} {v : Value} {vs : List Value} : Picks .first [.array mark (v :: vs)] v
  | last {mark : Nat} {vs : List Value} {v : Value} : Picks .last [.array mark (vs ++ [v])] v

theorem Builtin.Picks.call_eq {b : Builtin} {args : List Value} {v : Value} (h : b.Picks args v) :
    b.call args = pure v := by
  cases h with
  | first => rfl
  | @last mark vs =>
    show pure ((vs ++ [v]).getLast?.getD .null) = _
    rw [List.getLast?_concat]
    rfl

theorem Builtin.Makes.call_eq {b : Builtin} {args vs : List Value} (h : b.Makes args vs) :
    b.call args = Action.newArray vs := by
  cases h <;> rfl

/-- A block leaves what its last expression gives, or what one of its statements returns. -/
inductive Concludes (scope : Scope) : List Stmt → Machine → Value → Machine → Prop
  | result {before : List Stmt} {e : Expr} {m m₁ m₂ : Machine} {seen rest : List Event} {v : Value} :
    Performed scope before m seen m₁ → Evaluates scope e m₁ rest v m₂ →
    Concludes scope (before ++ [.expr e]) m v m₂
  | returned {before after : List Stmt} {e : Expr} {m m₁ m₂ : Machine} {seen rest : List Event} {v : Value} :
    Performed scope before m seen m₁ → Evaluates scope e m₁ rest v m₂ → v.isSignal = false →
    Concludes scope (before ++ .give e :: after) m (.returned v) m₂
  /-- A return may arise in an expression, out of a block inside it. -/
  | stopped {before after : List Stmt} {e : Expr} {m m₁ m₂ : Machine} {seen rest : List Event} {v : Value} :
    Performed scope before m seen m₁ → Evaluates scope e m₁ rest (.returned v) m₂ →
    Concludes scope (before ++ .expr e :: after) m (.returned v) m₂

/-- Where no operator computes the value of an expression, it is a value that was there before and is handed on, or an
object that is made and holds the very values of its parts. -/
inductive HandsOn (scope : Scope) : Expr → Machine → Value → Machine → Prop
  | bound {id : Ident} {m : Machine} {v : Value} :
    m.store.get? scope id.name = some v → HandsOn scope (.ident id) m v m
  | builtin {id : Ident} {m : Machine} {b : Builtin} :
    m.store.get? scope id.name = none → Builtin.named? id.name = some b → HandsOn scope (.ident id) m (.builtin b) m
  | bool {b : Bool} {m : Machine} : HandsOn scope (.bool b) m (.boolean b) m
  | element {left index : Expr} {m m₁ m₂ : Machine} {seen rest : List Event} {mark : Nat} {vs : List Value}
    {n : Int64} {v : Value} :
    Evaluates scope left m seen (.array mark vs) m₁ → Evaluates scope index m₁ rest (.integer n) m₂ → 0 ≤ n →
    vs[n.toNatClampNeg]? = some v → HandsOn scope (.index left index) m v m₂
  | entry {left index : Expr} {m m₁ m₂ : Machine} {seen rest : List Event} {mark : Nat} {es : Entries} {k : HashKey}
    {key v : Value} :
    Evaluates scope left m seen (.hash mark es) m₁ → Evaluates scope index m₁ rest key m₂ → key.hashKey? = some k →
    es.get? k = some v → HandsOn scope (.index left index) m v m₂
  | picked {callee : Expr} {args : List Expr} {m m₁ m₂ : Machine} {seen rest : List Event} {ref : Ref} {b : Builtin}
    {vs : List Value} {v : Value} :
    Evaluates scope callee m seen (.builtinAt ref b) m₁ → ValuesOf scope args m₁ rest vs m₂ → b.Picks vs v →
    HandsOn scope (.call callee args) m v m₂
  | made {callee : Expr} {args : List Expr} {m m₁ m₂ : Machine} {seen rest : List Event} {ref : Ref} {b : Builtin}
    {vs ws : List Value} :
    Evaluates scope callee m seen (.builtinAt ref b) m₁ → ValuesOf scope args m₁ rest vs m₂ → b.Makes vs ws →
    HandsOn scope (.call callee args) m (.array m₂.marks ws) { m₂ with marks := m₂.marks + 1 }
  | array {elements : List Expr} {m m₁ : Machine} {seen : List Event} {vs : List Value} :
    ValuesOf scope elements m seen vs m₁ →
    HandsOn scope (.array elements) m (.array m₁.marks vs) { m₁ with marks := m₁.marks + 1 }
  | hash {pairs : List (Expr × Expr)} {m m₁ : Machine} {seen : List Event} {found : List (Value × Value)} :
    PairsOf scope pairs m seen found m₁ →
    HandsOn scope (.hash pairs) m (.hash m₁.marks (Entries.addAll [] found)) { m₁ with marks := m₁.marks + 1 }
  /-- A function holds the scope itself, with all that is bound in it later. -/
  | function {params : List Ident} {body : List Stmt} {m : Machine} :
    HandsOn scope (.function params body) m (.function m.marks ⟨params, body, scope⟩) { m with marks := m.marks + 1 }
  | yes {test : Expr} {yes : List Stmt} {no : Option (List Stmt)} {m m₁ m₂ : Machine} {seen : List Event}
    {t v : Value} :
    Evaluates scope test m seen t m₁ → t.isSignal = false → t.truthy → Concludes scope yes m₁ v m₂ →
    HandsOn scope (.cond test yes no) m v m₂
  | no {test : Expr} {yes no : List Stmt} {m m₁ m₂ : Machine} {seen : List Event} {t v : Value} :
    Evaluates scope test m seen t m₁ → t.isSignal = false → t.truthy = false → Concludes scope no m₁ v m₂ →
    HandsOn scope (.cond test yes (some no)) m v m₂
  /-- Of a return the call hands on the value. -/
  | call {callee : Expr} {args : List Expr} {c : Closure} {inner : Scope} {m m₁ m₂ : Machine} {seen : List Event}
    {v : Value} :
    Calls scope callee args m seen c inner m₁ → Concludes inner c.body m₁ v m₂ →
    HandsOn scope (.call callee args) m v.unwrapped m₂

section evaluates

variable {scope : Scope} {m m₁ m₂ m₃ : Machine} {seen rest : List Event} {v : Value}

theorem Concludes.ends {stmts : List Stmt} (h : Concludes scope stmts m v m₁) (last : Value) :
    ∃ seen, Ends (fun depth => Eval.block (Traced.eval depth) scope stmts last) m seen v m₁ := by
  cases h with
  | @result before e _ _ _ seen rest _ hbefore he =>
    have hlast (last : Value) : Ends (fun depth => Eval.block (Traced.eval depth) scope [.expr e] last) _ (rest ++ [])
        v m₁ := he.ends.bind (by cases v.isSignal <;> exact ends_pure v m₁)
    exact ⟨_, hbefore.ends_append hlast last⟩
  | @returned before after e _ _ _ seen rest v hbefore he hv =>
    have hgive (last : Value) : Ends (fun depth => Eval.block (Traced.eval depth) scope (.give e :: after) last) _
        (rest ++ [] ++ [.gave (.returned v)] ++ []) (.returned v) m₁ :=
      ((((he.ends.run_plain hv).run_bind (f := fun _ v => pure (Value.returned v)) (ends_run_pure _ m₁)).result).noting
        .gave).bind (ends_pure _ m₁)
    exact ⟨_, hbefore.ends_append hgive last⟩
  | stopped hbefore he => exact ⟨_, hbefore.stops .expr _ he rfl last⟩

/-- A builtin function that is called has its arguments, and what it leaves is the value of the call. -/
theorem Evaluates.call_builtin {callee : Expr} {args : List Expr} {ref : Ref} {b : Builtin} {vs : List Value}
    (hcallee : Evaluates scope callee m seen (.builtinAt ref b) m₁) (hargs : ValuesOf scope args m₁ rest vs m₂)
    (hcall : b.call vs m₂ = some (v, m₃)) : ∃ seen, Evaluates scope (.call callee args) m seen v m₃ := by
  have hstep : Ends (fun _ => step (b.call vs)) m₂ [.reached m₃] v m₃ := ends_of_eq (by rw [step, hcall])
  have hnote (event : Event) : Ends (fun _ => note event) m₂ [event] () m₂ := ends_of_eq rfl
  have happly : Ends (fun depth => Eval.apply (Traced.eval depth) (.builtinAt ref b) vs) m₂ _ v m₃ :=
    (hnote (.called (.builtinAt ref b) vs)).bind (((hnote (.builtin b vs)).bind hstep).noting .left)
  exact ⟨_, .of_expression ((hcallee.ends.run_plain rfl).run_bind (hargs.ends.run_bind happly.run_lift)).result⟩

theorem evaluates_ident {id : Ident} (h : Eval.ident scope id.name m = some (v, m)) :
    Evaluates scope (.ident id) m [.reached m, .gave v] v m := by
  have hstep : step (Eval.ident scope id.name) m = ([.reached m], some (v, m)) := by
    rw [step, h]
  exact .of_expression (e := .ident id) (ends_of_eq hstep)

theorem evaluates_bound {id : Ident} (h : m.store.get? scope id.name = some v) :
    Evaluates scope (.ident id) m [.reached m, .gave v] v m :=
  evaluates_ident (Action.bind_eq_some.2 ⟨some v, m, by rw [Action.lookup?_apply, h], rfl⟩)

theorem evaluates_builtin {id : Ident} {b : Builtin} (h : m.store.get? scope id.name = none)
    (hname : Builtin.named? id.name = some b) :
    Evaluates scope (.ident id) m [.reached m, .gave (.builtin b)] (.builtin b) m := by
  refine evaluates_ident (Action.bind_eq_some.2 ⟨none, m, by rw [Action.lookup?_apply, h], ?_⟩)
  rw [hname]
  rfl

/-- The evaluator does not copy what it hands on. -/
theorem HandsOn.evaluates {e : Expr} (h : HandsOn scope e m v m₁) : ∃ seen, Evaluates scope e m seen v m₁ := by
  cases h with
  | bound h => exact ⟨_, evaluates_bound h⟩
  | builtin h hname => exact ⟨_, evaluates_builtin h hname⟩
  | bool => exact ⟨_, evaluates_bool scope _ _⟩
  | @element left index _ _ _ _ _ mark vs n _ hleft hindex hn hget =>
    have h := hleft.indexed rfl hindex rfl
    rw [show (Value.array mark vs).indexed (.integer n) = v by
      rw [Value.indexed, Value.elementAt, if_neg (Int64.not_lt.2 hn), hget]; rfl] at h
    exact ⟨_, h⟩
  | @entry left index _ _ _ _ _ mark es k key _ hleft hindex hkey hget =>
    have h := hleft.indexed rfl hindex (Value.isSignal_of_hashKey? (by rw [hkey]; rfl))
    rw [show (Value.hash mark es).indexed key = v by
      rw [Value.indexed, hkey]
      exact congrArg (Option.getD · .null) hget] at h
    exact ⟨_, h⟩
  | picked hcallee hargs hpicks => exact hcallee.call_builtin hargs (by rw [hpicks.call_eq]; rfl)
  | made hcallee hargs hmakes => exact hcallee.call_builtin hargs (by rw [hmakes.call_eq]; rfl)
  | array hvs => exact ⟨_, hvs.evaluates⟩
  | hash hfound => exact ⟨_, hfound.evaluates⟩
  | function => exact ⟨_, .of_expression (ends_of_eq rfl)⟩
  | yes htest hplain htruthy hstmts | no htest hplain htruthy hstmts =>
    obtain ⟨rest, hends⟩ := hstmts.ends .null
    refine ⟨_, .of_expression ((htest.ends.run_plain hplain).run_bind (?_ : Ends _ _ rest _ _)).result⟩
    rw [htruthy]
    exact hends.run_lift
  | call hcalls hbody =>
    obtain ⟨_, hends⟩ := hbody.ends .null
    exact ⟨_, hcalls.evaluates hends⟩

/-- What a name is bound to is the value itself. -/
theorem Evaluates.performs_bind {e : Expr} (he : Evaluates scope e m seen v m₁) (hv : v.isSignal = false)
    (name : Ident) :
    ∃ seen, Performs scope (.bind name e) m seen v { m₁ with store := m₁.store.set scope name.name v } := by
  have hdefine : Ends (fun _ => step (Action.define scope name.name v)) m₁ _ () _ := ends_of_eq rfl
  have hrest := hdefine.run_lift.run_bind (f := fun _ _ => pure v) (ends_run_pure v _)
  have hends : Ends (fun depth => Eval.statement (Traced.eval depth) scope (.bind name e)) m _ v _ :=
    ((he.ends.run_plain hv).run_bind hrest).result.noting .gave
  obtain ⟨least, hends⟩ := hends
  exact ⟨_, least, hends least (Nat.le_refl _)⟩

theorem get?_bindAll {params : List Ident} {args : List Value} (hscope : scope.frame < m.store.frames.size)
    (h : Eval.bindAll (M := Traced) scope params args m = (seen, some ((), m₁))) (y : String) :
    m₁.store.get? scope y = (((params.map (·.name)).zip args).reverse.lookup y).or (m.store.get? scope y) := by
  induction params generalizing m seen args with
  | nil =>
    cases h
    rfl
  | cons p ps ih =>
    cases args with
    | nil =>
      cases h
      rfl
    | cons a as =>
      obtain ⟨first, u, m₂, rest, hdefine, hrest, -⟩ := Traced.bind_eq_some.1 h
      cases hdefine
      -- of two parameters with one name the later one is found, so the bindings are looked through from the last
      rw [ih (by rwa [Store.size_set]) hrest, Store.get?_set hscope, List.map_cons, List.zip_cons_cons,
        List.reverse_cons, List.lookup_append, Option.or_assoc]
      congr 1
      by_cases hy : y = p.name
      · simp [hy]
      · simp [List.lookup_cons, hy, beq_eq_false_iff_ne.2 hy]

/-- In the body of a function each parameter is bound to the very argument, and all other names mean what they do in
the scope that the function holds. -/
theorem Enters.get?_eq {c : Closure} {args : List Value} {inner : Scope} (h : Enters c args m seen inner m₁)
    (hscope : c.scope.frame < m.store.frames.size) (y : String) :
    m₁.store.get? inner y =
      (((c.params.map (·.name)).zip args).reverse.lookup y).or (m.store.get? c.scope y) := by
  obtain ⟨first, m₂, rest, hchild, hbind, -⟩ := h
  obtain ⟨rfl, rfl⟩ : (m.store.newChild c.scope).1 = inner ∧ { m with store := (m.store.newChild c.scope).2 } = m₂ := by
    cases hchild
    exact ⟨rfl, rfl⟩
  -- the new scope binds nothing yet, so what is not a parameter is looked for around it
  have hinner : (m.store.newChild c.scope).1.frame < (m.store.newChild c.scope).2.frames.size := by
    rw [Store.newChild, Store.size_push]
    exact Nat.lt_succ_self _
  rw [get?_bindAll hinner hbind]
  exact congrArg _ (Store.get?_newChild hscope y)

end evaluates

end Monkey
