import Monkey.Proofs.Evaluation

namespace Monkey

open Traced

/-- Where an expression stands in a statement. -/
inductive Place
  | bind (name : Ident)
  | give
  | expr

namespace Place

def fill (e : Expr) : Place → Stmt
  | bind name => .bind name e
  | give => .give e
  | expr => .expr e

/-- How many results are noted around that of the expression itself. -/
def height : Place → Nat
  | bind _ | give => 1
  | expr => 0

end Place

/-- A form of expression around one that stands inside it, with all that stands beside it. -/
inductive Layer
  | unary (op : Token)
  | left (op : Token) (right : Expr)
  | right (left : Expr) (op : Token)
  | test (yes : List Stmt) (no : Option (List Stmt))
  | yes (test : Expr) (before : List Stmt) (place : Place) (after : List Stmt) (no : Option (List Stmt))
  | no (test : Expr) (yes before : List Stmt) (place : Place) (after : List Stmt)
  | callee (args : List Expr)
  | arg (callee : Expr) (before after : List Expr)
  | element (before after : List Expr)
  | indexed (index : Expr)
  | index (left : Expr)
  | key (before : List (Expr × Expr)) (value : Expr) (after : List (Expr × Expr))
  | value (before : List (Expr × Expr)) (key : Expr) (after : List (Expr × Expr))

namespace Layer

def fill (e : Expr) : Layer → Expr
  | unary op => .unary op e
  | left op b => .binary e op b
  | right a op => .binary a op e
  | test stmts other => .cond e stmts other
  | yes condition before place after other => .cond condition (before ++ place.fill e :: after) other
  | no condition stmts before place after =>
    .cond condition stmts (some (before ++ place.fill e :: after))
  | callee args => .call e args
  | arg f before after => .call f (before ++ e :: after)
  | element before after => .array (before ++ e :: after)
  | indexed b => .index e b
  | index a => .index a e
  | key before v after => .hash (before ++ (e, v) :: after)
  | value before k after => .hash (before ++ (k, e) :: after)

/-- How many results are noted between that of the expression inside and that of the whole. -/
def inner : Layer → Nat
  | yes _ _ place _ _ | no _ _ _ place _ => place.height
  | _ => 0

/-- What comes before the expression inside has been evaluated, and none of it was a signal. -/
inductive Opens (scope : Scope) : Layer → Machine → List Event → Machine → Prop
  | unary {op : Token} {m : Machine} : Opens scope (unary op) m [] m
  | left {op : Token} {right : Expr} {m : Machine} : Opens scope (left op right) m [] m
  | right {left : Expr} {op : Token} {m m₁ : Machine} {seen : List Event} {v : Value} :
    Evaluates scope left m seen v m₁ → v.isSignal = false → Opens scope (right left op) m seen m₁
  | test {yes : List Stmt} {no : Option (List Stmt)} {m : Machine} : Opens scope (test yes no) m [] m
  | yes {test : Expr} {before after : List Stmt} {place : Place} {no : Option (List Stmt)}
    {m m₁ m₂ : Machine} {seen rest : List Event} {v : Value} :
    Evaluates scope test m seen v m₁ → v.isSignal = false → v.truthy → Performed scope before m₁ rest m₂ →
    Opens scope (yes test before place after no) m (seen ++ rest) m₂
  | no {test : Expr} {yes before after : List Stmt} {place : Place} {m m₁ m₂ : Machine}
    {seen rest : List Event} {v : Value} :
    Evaluates scope test m seen v m₁ → v.isSignal = false → v.truthy = false →
    Performed scope before m₁ rest m₂ → Opens scope (no test yes before place after) m (seen ++ rest) m₂
  | callee {args : List Expr} {m : Machine} : Opens scope (callee args) m [] m
  | arg {callee : Expr} {before after : List Expr} {m m₁ m₂ : Machine} {seen rest : List Event} {f : Value}
    {vs : List Value} :
    Evaluates scope callee m seen f m₁ → f.isSignal = false → ValuesOf scope before m₁ rest vs m₂ →
    Opens scope (arg callee before after) m (seen ++ rest) m₂
  | element {before after : List Expr} {m m₁ : Machine} {seen : List Event} {vs : List Value} :
    ValuesOf scope before m seen vs m₁ → Opens scope (element before after) m seen m₁
  | indexed {index : Expr} {m : Machine} : Opens scope (indexed index) m [] m
  | index {left : Expr} {m m₁ : Machine} {seen : List Event} {v : Value} :
    Evaluates scope left m seen v m₁ → v.isSignal = false → Opens scope (index left) m seen m₁
  | key {before after : List (Expr × Expr)} {value : Expr} {m m₁ : Machine} {seen : List Event}
    {found : List (Value × Value)} :
    PairsOf scope before m seen found m₁ → Opens scope (key before value after) m seen m₁
  | value {before after : List (Expr × Expr)} {key : Expr} {m m₁ m₂ : Machine} {seen rest : List Event}
    {found : List (Value × Value)} {k : Value} :
    PairsOf scope before m seen found m₁ → Evaluates scope key m₁ rest k m₂ → k.hashKey?.isSome →
    Opens scope (value before key after) m (seen ++ rest) m₂

end Layer

section stopping

variable {scope : Scope} {e : Expr} {m m₁ m₂ : Machine} {seen seen' : List Event} {g : Value}

/-- A statement gives the signal that arises in it, and binds nothing. -/
theorem Place.stops (place : Place) (he : Evaluates scope e m seen g m₁) (hg : g.isSignal) :
    Ends (fun depth => Eval.statement (Traced.eval depth) scope (place.fill e)) m
      (seen ++ List.replicate place.height (.gave g)) g m₁ := by
  cases place with
  | bind | give => exact (he.ends.run_plain_signal hg).run_bind_error.result_error.noting .gave
  | expr => exact he.ends.of_seen (List.append_nil seen).symm

/-- A block ends with the signal that arises in one of its statements. -/
theorem Performed.stops {before : List Stmt} (hbefore : Performed scope before m seen m₁) (place : Place)
    (after : List Stmt) (he : Evaluates scope e m₁ seen' g m₂) (hg : g.isSignal) (last : Value) :
    Ends (fun depth => Eval.block (Traced.eval depth) scope (before ++ place.fill e :: after) last) m
      (seen ++ (seen' ++ List.replicate place.height (.gave g))) g m₂ := by
  refine hbefore.ends_append (fun last => ?_) last
  refine ((place.stops he hg).bind ?_).of_seen (List.append_nil _)
  rw [hg]
  exact ends_pure g m₂

theorem ValuesOf.stops {before after : List Expr} {vs : List Value} (hbefore : ValuesOf scope before m seen vs m₁)
    (he : Evaluates scope e m₁ seen' g m₂) (hg : g.isSignal) :
    Ends (fun depth => (Eval.values (Traced.eval depth) scope (before ++ e :: after)).run) m (seen ++ seen')
      (.error g) m₂ := by
  have hfirst : Ends (fun depth => (Eval.values (Traced.eval depth) scope (e :: after)).run) m₁ seen'
      (.error g) m₂ := (he.ends.run_plain_signal hg).run_bind_error
  exact hbefore.ends_append hfirst

theorem Layer.Opens.ends {layer : Layer} (hlayer : layer.Opens scope m seen m₁)
    (he : Evaluates scope e m₁ seen' g m₂) (hg : g.isSignal) :
    Ends (fun depth => Eval.expression (Traced.eval depth) scope (layer.fill e)) m
      (seen ++ (seen' ++ List.replicate layer.inner (.gave g))) g m₂ := by
  have hleaves := he.ends.run_plain_signal hg
  have hnone : seen ++ (seen' ++ List.replicate 0 (Event.gave g)) = seen ++ seen' := by
    rw [List.replicate_zero, List.append_nil]
  cases hlayer with
  | unary | left | test | callee | indexed =>
    exact Ends.of_seen hleaves.run_bind_error.result_error hnone.symm
  | right hleft hplain | index hleft hplain =>
    exact Ends.of_seen ((hleft.ends.run_plain hplain).run_bind hleaves.run_bind_error).result_error hnone.symm
  | yes htest hplain htruthy hbefore | no htest hplain htruthy hbefore =>
    rw [List.append_assoc]
    refine ((htest.ends.run_plain hplain).run_bind ?_).result
    rw [htruthy]
    exact (hbefore.stops _ _ he hg .null).run_lift
  | arg hcallee hplain hbefore =>
    refine Ends.of_seen ?_ hnone.symm
    rw [List.append_assoc]
    exact ((hcallee.ends.run_plain hplain).run_bind (hbefore.stops he hg).run_bind_error).result_error
  | element hbefore =>
    exact Ends.of_seen (hbefore.stops he hg).run_bind_error.result_error hnone.symm
  | key hbefore =>
    exact Ends.of_seen (hbefore.stops _ (.key he hg)).run_bind_error.result_error hnone.symm
  | value hbefore hkey hk =>
    refine Ends.of_seen ?_ hnone.symm
    rw [List.append_assoc]
    exact (hbefore.stops _ (.value hkey hk he hg)).run_bind_error.result_error

/-- The signal that arises inside is what the whole gives, and nothing comes after it. -/
theorem Layer.Opens.stops {layer : Layer} (hlayer : layer.Opens scope m seen m₁)
    (he : Evaluates scope e m₁ seen' g m₂) (hg : g.isSignal) :
    Evaluates scope (layer.fill e) m
      (seen ++ (seen' ++ List.replicate (layer.inner + 1) (.gave g))) g m₂ := by
  have hevaluates := Evaluates.of_expression (hlayer.ends he hg)
  rwa [List.append_assoc, List.append_assoc, ← List.replicate_succ'] at hevaluates

end stopping

/-- Layers around each other, the outermost first. -/
def fillAll (context : List Layer) (e : Expr) : Expr :=
  context.foldr (fun layer inside => layer.fill inside) e

/-- How many results are noted around that of the expression inside. -/
def heightOf : List Layer → Nat
  | [] => 0
  | layer :: context => layer.inner + 1 + heightOf context

/-- The expression inside is what is evaluated next, after all that comes before it in any layer. -/
inductive Reaches (scope : Scope) : List Layer → Machine → List Event → Machine → Prop
  | nil {m : Machine} : Reaches scope [] m [] m
  | cons {layer : Layer} {context : List Layer} {m m₁ m₂ : Machine} {seen rest : List Event} :
    layer.Opens scope m seen m₁ → Reaches scope context m₁ rest m₂ →
    Reaches scope (layer :: context) m (seen ++ rest) m₂

theorem Reaches.stops {scope : Scope} {context : List Layer} {e : Expr} {m m₁ m₂ : Machine}
    {seen seen' : List Event} {g : Value} (h : Reaches scope context m seen m₁)
    (he : Evaluates scope e m₁ seen' g m₂) (hg : g.isSignal) :
    Evaluates scope (fillAll context e) m (seen ++ (seen' ++ List.replicate (heightOf context) (.gave g))) g m₂ := by
  induction h with
  | nil =>
    rwa [heightOf, List.replicate_zero, List.append_nil]
  | @cons layer context m m₁ m₂ seen rest hlayer _ ih =>
    have hstops := hlayer.stops (ih he) hg
    rw [List.append_assoc, List.append_assoc, List.replicate_append_replicate, Nat.add_comm] at hstops
    rwa [List.append_assoc]

/-- With enough depth the program has this value. -/
def Runs (scope : Scope) (stmts : List Stmt) (m : Machine) (seen : List Event) (v : Value) (m' : Machine) : Prop :=
  ∃ depth, Eval.program (Traced.eval depth) scope stmts m = (seen, some (v, m'))

/-- The parameters of a function are bound to arguments, in a new scope inside its own. -/
def Enters (c : Closure) (args : List Value) (m : Machine) (seen : List Event) (scope : Scope) (m' : Machine) :
    Prop :=
  ∃ first m₁ rest, Traced.step (Action.newChild c.scope) m = (first, some (scope, m₁)) ∧
    Eval.bindAll (M := Traced) scope c.params args m₁ = (rest, some ((), m')) ∧ seen = first ++ rest

/-- A call comes to the body of a function, whose parameters are bound to as many arguments. -/
def Calls (outer : Scope) (callee : Expr) (args : List Expr) (m : Machine) (seen : List Event) (c : Closure)
    (scope : Scope) (m' : Machine) : Prop :=
  ∃ mark vs m₁ m₂ first second third, Evaluates outer callee m first (.function mark c) m₁ ∧
    ValuesOf outer args m₁ second vs m₂ ∧ vs.length = c.params.length ∧ Enters c vs m₂ third scope m' ∧
    seen = first ++ (second ++ .called (.function mark c) vs :: third)

section boundaries

variable {scope : Scope} {m m₁ : Machine} {seen seen' : List Event} {v : Value}

/-- A call does the same with the body of its function. -/
theorem Enters.applies {c : Closure} {vs : List Value} (henters : Enters c vs m seen scope m₁) (mark : Nat)
    (hlength : vs.length = c.params.length) {m₂ : Machine}
    (h : Ends (fun depth => Eval.block (Traced.eval depth) scope c.body .null) m₁ seen' v m₂) :
    Ends (fun depth => Eval.apply (Traced.eval depth) (.function mark c) vs) m
      (.called (.function mark c) vs :: (seen ++ seen' ++ [.left v.unwrapped])) v.unwrapped m₂ := by
  obtain ⟨opened, m₃', bound, hopened, hbound, rfl⟩ := henters
  have hbody := (ends_of_eq hopened).bind (f := fun depth scope => do
    Eval.bindAll (M := Traced) scope c.params vs
    return (← Eval.block (Traced.eval depth) scope c.body .null).unwrapped)
    ((ends_of_eq hbound).bind (h.bind (ends_pure v.unwrapped m₂)))
  have hnote : Ends (fun _ => Traced.note (.called (.function mark c) vs)) m [.called (.function mark c) vs] () m :=
    ends_of_eq rfl
  refine (hnote.bind (?_ : Ends _ _ (opened ++ (bound ++ (seen' ++ [])) ++ [.left v.unwrapped]) _ _)).of_seen (by simp)
  simp only [hlength, ne_eq, not_true, if_false]
  exact hbody.noting .left

theorem Calls.evaluates {outer : Scope} {callee : Expr} {args : List Expr} {c : Closure}
    (hcall : Calls outer callee args m seen c scope m₁) {m₂ : Machine}
    (h : Ends (fun depth => Eval.block (Traced.eval depth) scope c.body .null) m₁ seen' v m₂) :
    Evaluates outer (.call callee args) m (seen ++ (seen' ++ [.left v.unwrapped, .gave v.unwrapped]))
      v.unwrapped m₂ := by
  obtain ⟨mark, vs, m₁', m₂', first, second, third, hf, hvs, hlength, henters, rfl⟩ := hcall
  have happly := henters.applies mark hlength h
  have hcall : Ends (fun depth => Eval.expression (Traced.eval depth) outer (.call callee args)) m
      (first ++ (second ++ .called (.function mark c) vs :: (third ++ seen' ++ [.left v.unwrapped])))
      v.unwrapped m₂ :=
    ((hf.ends.run_plain rfl).run_bind (hvs.ends.run_bind happly.run_lift)).result
  have hevaluates := Evaluates.of_expression hcall
  simpa using hevaluates

end boundaries

end Monkey
