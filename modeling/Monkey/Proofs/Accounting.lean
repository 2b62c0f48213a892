import Monkey.Proofs.Ledger

namespace Monkey

section parts

variable {α : Type} {g : ExceptT Value Traced α} {make : α → Action Value} {m m' m'' : Machine} {seen : List Event}
  {v : Value}

/-- A literal has no result if one of its parts has none. -/
theorem Traced.noting_result_of_none (h : g.run m = (seen, none)) :
    Traced.noting .gave (Guarded.result do
      let a ← g
      (Traced.step (make a) : Traced Value)) m = (seen, none) :=
  bind_of_none (bind_of_none (bind_of_none h))

/-- A literal of which a part gives a signal gives that signal. -/
theorem Traced.noting_result_of_error (h : g.run m = (seen, some (.error v, m'))) :
    Traced.noting .gave (Guarded.result do
      let a ← g
      (Traced.step (make a) : Traced Value)) m = (seen ++ [.gave v], some (v, m')) := by
  obtain ⟨least, hends⟩ := ((ends_of_eq h).run_bind_error
    (f := fun _ a => (Traced.step (make a) : Traced Value))).result_error.noting .gave
  exact hends least (Nat.le_refl _)

/-- Else its object is made in one step more. -/
theorem Traced.noting_result_of_ok {a : α} (h : g.run m = (seen, some (.ok a, m')))
    (hmake : make a m' = some (v, m'')) :
    Traced.noting .gave (Guarded.result do
      let a ← g
      (Traced.step (make a) : Traced Value)) m = (seen ++ [.reached m'', .gave v], some (v, m'')) := by
  have hstep : Traced.step (make a) m' = ([.reached m''], some (v, m'')) := by
    rw [Traced.step, hmake]
  obtain ⟨least, hends⟩ := (((ends_of_eq h).run_bind (f := fun _ a => (Traced.step (make a) : Traced Value))
    (ends_of_eq hstep).run_lift).result.noting .gave).of_seen (List.append_assoc ..)
  exact hends least (Nat.le_refl _)

end parts

namespace Ledger

variable {α β : Type} {L : Ledger} {Q : Ledger → α → Prop} {R : Ledger → β → Prop}

/-- What holds of a guarded result. A signal that leaves is known too. -/
def Result (Q : Ledger → α → Prop) (L : Ledger) : Except Value α → Prop
  | .ok a => Q L a
  | .error v => v.Known L

def Passes (L : Ledger) (g : ExceptT Value Traced α) (Q : Ledger → α → Prop) : Prop :=
  L.Keeps g.run (Result Q)

theorem passes_pure {a : α} (h : ∀ L₁, L.Within L₁ → Q L₁ a) : L.Passes (pure a) Q :=
  keeps_pure h

theorem passes_throw {v : Value} (h : v.Known L) : L.Passes (throw v : ExceptT Value Traced α) Q :=
  keeps_pure fun _ hL => h.later hL

theorem Passes.bind {g : ExceptT Value Traced α} {f : α → ExceptT Value Traced β} (hg : L.Passes g Q)
    (hf : ∀ L₁ a, L.Within L₁ → Q L₁ a → L₁.Passes (f a) R) : L.Passes (g >>= f) R := by
  refine Keeps.bind hg fun L₁ out hL hout => ?_
  cases out with
  | ok a => exact hf L₁ a hL hout
  | error v => exact keeps_pure fun _ hL₁ => hout.later hL₁

theorem Keeps.lift {x : Traced α} (hx : L.Keeps x Q) : L.Passes (x : ExceptT Value Traced α) Q :=
  Keeps.map hx fun _ _ h => h

theorem Passes.before {event : Event} {g : ExceptT Value Traced α} (h : event.Known L) (hg : L.Passes g Q) :
    L.Passes (Guarded.before event g) Q :=
  (keeps_note event h).bind fun _ _ hL _ L₂ m hL₂ => hg L₂ m (hL.trans hL₂)

theorem Keeps.plain {x : Traced Value} (hx : L.Keeps x fun L₁ v => v.Known L₁) :
    L.Passes (Guarded.plain x) fun L₁ v => v.Known L₁ := by
  refine Passes.bind hx.lift fun L₁ v _ hv => ?_
  split
  · exact passes_throw hv
  · exact passes_pure fun _ hL => hv.later hL

theorem Passes.result {g : ExceptT Value Traced Value} (hg : L.Passes g fun L₁ v => v.Known L₁) :
    L.Keeps (Guarded.result g) fun L₁ v => v.Known L₁ :=
  Keeps.bind hg fun _ out _ hout => by cases out <;> exact keeps_pure fun _ hL => Value.Known.later hL hout

section eval
open Eval

variable {ev : Scope → Expr → Traced Value}
  (hev : ∀ L scope e, scope.frame < L.frames → Keeps L (ev scope e) fun L₁ v => v.Known L₁)
include hev

theorem passes_values {L : Ledger} {scope : Scope} (hscope : scope.frame < L.frames) (es : List Expr) :
    L.Passes (values ev scope es) fun L₁ vs => AllKnown L₁ vs := by
  induction es generalizing L with
  | nil => exact passes_pure fun _ _ => allEvery_nil
  | cons e es ih =>
    refine (hev L scope e hscope).plain.bind fun L₁ v hL hv => ?_
    refine (ih (Nat.lt_of_lt_of_le hscope hL.frames)).bind fun L₂ vs hL₂ hvs => ?_
    exact passes_pure fun _ hL₃ =>
      allEvery_cons.2 ⟨hv.later (hL₂.trans hL₃), hvs.later hL₃⟩

theorem passes_entries {L : Ledger} {scope : Scope} (hscope : scope.frame < L.frames)
    (pairs : List (Expr × Expr)) {acc : Entries} (hacc : EntriesKnown L acc) :
    L.Passes (entries ev scope pairs acc) fun L₁ es => EntriesKnown L₁ es := by
  induction pairs generalizing L acc with
  | nil => exact passes_pure fun _ hL => hacc.later hL
  | cons pair pairs ih =>
    refine (hev L scope pair.1 hscope).plain.bind fun L₁ key hL hkey => ?_
    split
    · exact passes_throw (Value.every_error _)
    · have hscope₁ := Nat.lt_of_lt_of_le hscope hL.frames
      refine (hev L₁ scope pair.2 hscope₁).plain.bind fun L₂ v hL₂ hv => ?_
      refine ih (Nat.lt_of_lt_of_le hscope₁ hL₂.frames) ?_
      exact (hacc.later (hL.trans hL₂)).insert (hkey.later hL₂) hv

theorem keeps_statement {L : Ledger} {scope : Scope} (hscope : scope.frame < L.frames) (s : Stmt) :
    L.Keeps (statement ev scope s) fun L₁ v => v.Known L₁ := by
  cases s with
  | bind name e =>
    refine Keeps.noting (Passes.result ?_) fun _ _ h => h
    refine (hev L scope e hscope).plain.bind fun L₁ v _ hv => ?_
    refine (keeps_define hv scope name.name).lift.bind fun _ _ hL₂ _ => ?_
    exact passes_pure fun _ hL₃ => hv.later (hL₂.trans hL₃)
  | give e =>
    refine Keeps.noting (Passes.result ?_) fun _ _ h => h
    exact (hev L scope e hscope).plain.bind fun L₁ v _ hv =>
      passes_pure fun _ hL => Value.every_returned.2 (hv.later hL)
  | expr e => exact hev L scope e hscope

theorem keeps_block {L : Ledger} {scope : Scope} (hscope : scope.frame < L.frames) (stmts : List Stmt)
    {last : Value} (hlast : last.Known L) :
    L.Keeps (block ev scope stmts last) fun L₁ v => v.Known L₁ := by
  induction stmts generalizing L last with
  | nil => exact keeps_pure fun _ hL => hlast.later hL
  | cons s stmts ih =>
    refine (keeps_statement hev hscope s).bind fun L₁ v hL hv => ?_
    split
    · exact keeps_pure fun _ hL₁ => hv.later hL₁
    · exact ih (Nat.lt_of_lt_of_le hscope hL.frames) hv

theorem keeps_unwrapped {L : Ledger} {scope : Scope} (hscope : scope.frame < L.frames)
    (stmts : List Stmt) :
    L.Keeps (do return (← block ev scope stmts .null).unwrapped) fun L₁ v => v.Known L₁ :=
  Keeps.map (keeps_block hev hscope stmts Value.every_null) fun _ _ hv => hv.unwrapped

theorem keeps_program {L : Ledger} {scope : Scope} (hscope : scope.frame < L.frames)
    (stmts : List Stmt) : L.Keeps (program ev scope stmts) fun L₁ v => v.Known L₁ :=
  Keeps.noting (keeps_unwrapped hev hscope stmts) fun _ _ h => h

theorem keeps_programs {L : Ledger} {scope : Scope} (hscope : scope.frame < L.frames)
    (inputs : List (List Stmt)) :
    L.Keeps (programs ev scope inputs) fun L₁ vs => AllKnown L₁ vs := by
  induction inputs generalizing L with
  | nil => exact keeps_pure fun _ _ => allEvery_nil
  | cons stmts inputs ih =>
    refine (keeps_program hev hscope stmts).bind fun L₁ v hL hv => ?_
    refine (ih (Nat.lt_of_lt_of_le hscope hL.frames)).bind fun L₂ vs hL₂ hvs => ?_
    exact keeps_pure fun _ hL₃ =>
      allEvery_cons.2 ⟨hv.later (hL₂.trans hL₃), hvs.later hL₃⟩

omit hev in
theorem keeps_bindAll {L : Ledger} (scope : Scope) (params : List Ident) {args : List Value}
    (hargs : AllKnown L args) : L.Keeps (bindAll scope params args) fun _ _ => True := by
  induction params generalizing L args with
  | nil => exact keeps_pure fun _ _ => trivial
  | cons p ps ih =>
    cases args with
    | nil => exact keeps_pure fun _ _ => trivial
    | cons v vs =>
      obtain ⟨hv, hvs⟩ := allEvery_cons.1 hargs
      exact (keeps_define hv scope p.name).bind fun _ _ hL _ => ih (AllKnown.later hL hvs)

theorem keeps_apply {L : Ledger} {f : Value} (hf : f.Known L) {args : List Value}
    (hargs : AllKnown L args) : L.Keeps (apply ev f args) fun L₁ v => v.Known L₁ := by
  refine (keeps_note (.called f args) ⟨hf, hargs⟩).bind fun L₁ _ hL _ => ?_
  cases f with
  | function mark c =>
    refine Keeps.noting ?_ fun _ _ h => h
    dsimp only
    split
    · exact keeps_pure fun _ _ => Value.every_error _
    · refine (keeps_newChild c.scope).bind fun L₂ scope hL₂ hscope => ?_
      refine (keeps_bindAll scope c.params (hargs.later (hL.trans hL₂))).bind ?_
      exact fun _ _ hL₃ _ => keeps_unwrapped hev (Nat.lt_of_lt_of_le hscope hL₃.frames) c.body
  | builtinAt ref b => exact keeps_builtin b (hargs.later hL)
  | _ => exact Keeps.noting (keeps_pure fun _ _ => Value.every_error _) fun _ _ h => h

/-- Only a literal makes an object in its last step. -/
theorem keeps_expression {L : Ledger} {scope : Scope} (hscope : scope.frame < L.frames) {e : Expr}
    (he : e.isLiteral = false) : L.Keeps (expression ev scope e) fun L₁ v => v.Known L₁ := by
  have hev₁ (e : Expr) {L₁ : Ledger} (hL : L.Within L₁) :=
    (hev L₁ scope e (Nat.lt_of_lt_of_le hscope hL.frames)).plain
  cases e with
  | ident id => exact keeps_ident scope id.name
  | int n => exact keeps_pure fun _ _ => Value.every_integer n
  | string s => exact keeps_pure fun _ _ => Value.every_string s
  | bool b => exact keeps_pure fun _ _ => Value.every_boolean b
  | unary op right =>
    refine Passes.result ?_
    exact (hev₁ right (.refl L)).bind fun L₁ v _ hv => .before hv (passes_pure fun _ _ => Value.every_unary op v)
  | binary left op right =>
    refine Passes.result ?_
    refine (hev₁ left (.refl L)).bind fun L₁ a hL ha => (hev₁ right hL).bind fun L₂ b hL₂ hb => ?_
    exact .before ⟨ha.later hL₂, hb⟩ (passes_pure fun _ _ => Value.every_binary op a b)
  | cond test yes no =>
    refine Passes.result ?_
    refine (hev₁ test (.refl L)).bind fun L₁ v hL _ => ?_
    have hscope₁ := Nat.lt_of_lt_of_le hscope hL.frames
    split
    · exact (keeps_block hev hscope₁ yes Value.every_null).lift
    · split
      · exact (keeps_block hev hscope₁ _ Value.every_null).lift
      · exact passes_pure fun _ _ => Value.every_null
  | call callee args =>
    refine Passes.result ?_
    refine (hev₁ callee (.refl L)).bind fun L₁ f hL hf => ?_
    refine (passes_values hev (Nat.lt_of_lt_of_le hscope hL.frames) args).bind fun L₂ vs hL₂ hvs => ?_
    exact (keeps_apply hev (hf.later hL₂) hvs).lift
  | index left index =>
    refine Passes.result ?_
    refine (hev₁ left (.refl L)).bind fun L₁ a hL ha => (hev₁ index hL).bind fun L₂ b hL₂ hb => ?_
    exact .before ⟨ha.later hL₂, hb⟩ (passes_pure fun _ hL₃ => (ha.later (hL₂.trans hL₃)).indexed b)
  | array elements | hash pairs | function params body => exact nomatch he

end eval

/-- A literal makes its object of what its parts give. -/
theorem keeps_literal {depth : Nat} {scope : Scope} {e : Expr} (he : e.isLiteral) {g : ExceptT Value Traced α}
    {make : α → Action Value} {object : α → Nat → Value}
    (heval : Traced.eval (depth + 1) scope e = Traced.noting .gave (Guarded.result do
      let a ← g
      (Traced.step (make a) : Traced Value)))
    (hg : L.Passes g Q) (hmake : ∀ L₁ a, L.Within L₁ → Q L₁ a → L₁.Makes (make a) (object a)) :
    L.Keeps (Traced.eval (depth + 1) scope e) fun L₁ v => v.Known L₁ := by
  intro L₁ m hL hm
  have hparts := hg L₁ m hL hm
  generalize hgm : g.run m = r at hparts
  cases hparts with
  | deep h =>
    rw [heval, Traced.noting_result_of_none hgm]
    exact .deep h
  | @done L₂ seen out m' h hm' hout =>
    cases out with
    | error v =>
      -- a part gave a signal, so no object is made
      rw [heval, Traced.noting_result_of_error hgm]
      refine .done (h.append (.quiet (.refl L₂) rfl fun event hevent => ?_)) hm' hout
      exact List.mem_singleton.1 hevent ▸ hout
    | ok a =>
      have hmakes := hmake L₂ a (hL.trans h.within) hout
      have hrun : Traced.eval (depth + 1) scope e m = _ := heval ▸ Traced.noting_result_of_ok hgm (hmakes.run_eq m')
      rw [hrun]
      refine .done (h.make hm' (hmakes.mark?_eq _) (List.nil_append _).symm (.literal he ⟨_, hrun⟩) ?_)
        (hm'.make _) (hmakes.known_make hm')
      exact hmakes.known_make hm'

theorem keeps_eval (depth : Nat) (L : Ledger) (scope : Scope) (e : Expr) (hscope : scope.frame < L.frames) :
    L.Keeps (Traced.eval depth scope e) fun L₁ v => v.Known L₁ := by
  induction depth generalizing L scope e with
  | zero => exact fun L₁ _ _ _ => .deep (.quiet (.refl L₁) rfl fun _ h => nomatch h)
  | succ depth ih =>
    -- the three forms that make an object; `keeps_expression` has the others
    cases e with
    | array elements =>
      exact keeps_literal rfl rfl (passes_values ih hscope elements) fun _ _ _ hvs => makes_newArray hvs
    | hash pairs =>
      exact keeps_literal rfl rfl (passes_entries ih hscope pairs .nil) fun _ _ _ hes => makes_newHash hes
    | function params body =>
      have hparts : L.Passes (pure ⟨params, body, scope⟩ : ExceptT Value Traced Closure)
          fun L₁ c => c.scope.frame < L₁.frames := passes_pure fun _ hL => Nat.lt_of_lt_of_le hscope hL.frames
      exact keeps_literal rfl rfl hparts fun _ _ _ hc => makes_newFunction hc
    | _ => exact Keeps.noting (keeps_expression ih hscope rfl) fun _ _ h => h

/-- Whatever happens in a session, there is a ledger of all that it makes. -/
theorem session_accounts (limit : Option Nat) (order : Arrangement) (depth : Nat) (inputs : List (List Stmt)) :
    ∃ L, Accounts ⟨[], 0, order⟩ L (Traced.session depth inputs (.new limit order)).1 := by
  have hsession : Keeps ⟨[], 0, order⟩ (Traced.session depth inputs) fun L vs => AllKnown L vs :=
    keeps_newGlobal.bind fun _ _ _ hscope => keeps_programs (keeps_eval depth) hscope inputs
  have hends := hsession _ _ (.refl _) (Machine.follows_new limit order)
  generalize Traced.session depth inputs (.new limit order) = r at hends ⊢
  cases hends with
  | deep h | done h => exact ⟨_, h⟩

/-- A machine that a session reaches follows what was made by then, and hashes are still shown as in the beginning. -/
theorem follows_of_reached {limit : Option Nat} {order : Arrangement} {depth : Nat} {inputs : List (List Stmt)}
    {m : Machine} (hm : .reached m ∈ (Traced.session depth inputs (.new limit order)).1) :
    ∃ L, m.Follows L ∧ m.order = order := by
  obtain ⟨L, haccounts⟩ := session_accounts limit order depth inputs
  obtain ⟨L₀, hwithin, hfollows⟩ := haccounts.known _ hm
  refine ⟨L₀, hfollows, ?_⟩
  rw [hfollows.order_eq, ← hwithin.order, haccounts.within.order]

end Ledger

end Monkey
