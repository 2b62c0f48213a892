import Monkey.Proofs.Objects
import Monkey.Proofs.Showing

namespace Monkey

section avoids

variable (z : String)

mutual

/-- The name is looked up nowhere in the expression. -/
def Expr.avoids : Expr → Bool
  | .ident id => id.name ≠ z
  | .int _ | .string _ | .bool _ => true
  | .unary _ right => right.avoids
  | .binary left _ right => left.avoids && right.avoids
  | .cond test yes none => test.avoids && stmtsAvoid yes
  | .cond test yes (some no) => test.avoids && stmtsAvoid yes && stmtsAvoid no
  | .function _ body => stmtsAvoid body
  | .call callee args => callee.avoids && allAvoid args
  | .array elements => allAvoid elements
  | .index left index => left.avoids && index.avoids
  | .hash pairs => pairsAvoid pairs

def Stmt.avoids : Stmt → Bool
  | .bind _ value | .give value | .expr value => value.avoids

def allAvoid : List Expr → Bool
  | [] => true
  | e :: es => e.avoids && allAvoid es

def pairsAvoid : List (Expr × Expr) → Bool
  | [] => true
  | (k, v) :: ps => k.avoids && v.avoids && pairsAvoid ps

def stmtsAvoid : List Stmt → Bool
  | [] => true
  | s :: ss => s.avoids && stmtsAvoid ss

end

end avoids

/-- The frames that evaluation in the scope can come to look at: its own, those around one of them, and those
in which a function was made that is in a value bound in one of them. -/
inductive Machine.Reaches (m : Machine) (scope : Scope) : Nat → Prop
  | own : Reaches m scope scope.frame
  | outer {f g : Nat} : Reaches m scope f → m.store.outer? f = some g → Reaches m scope g
  | captured {f : Nat} {y : String} {v : Value} {mark : Nat} {c : Closure} :
    Reaches m scope f → (m.store.bindings f).get? y = some v → v.Has (.function mark c) →
    Reaches m scope c.scope.frame

section ignorance

variable (z : String) (X : Nat → Prop)

/-- If the value is a function, its body looks the name up nowhere and its scope is among the frames. -/
def Value.Avoids : Value → Prop
  | .function _ c => stmtsAvoid z c.body ∧ X c.scope.frame
  | _ => True

instance : OfShared (Value.Avoids z X) :=
  ⟨fun _ h => by cases h <;> trivial⟩

abbrev Value.Ignores (v : Value) : Prop :=
  v.Every (Value.Avoids z X)

/-- The machines differ in nothing but what `z` is bound to, what was written before, and the order in which hashes
are shown. The frames `X` are closed under all that evaluation follows where it does not look `z` up, and those yet to
be made are among them. -/
structure Machine.SameBut (m m' : Machine) : Prop where
  size_eq : m'.store.frames.size = m.store.frames.size
  marks_eq : m'.marks = m.marks
  left_eq : m.sink.left = m'.sink.left
  outer_eq : ∀ f, m'.store.outer? f = m.store.outer? f
  bindings_eq : ∀ f y, y ≠ z → (m'.store.bindings f).get? y = (m.store.bindings f).get? y
  outer_mem : ∀ f g, X f → m.store.outer? f = some g → X g
  ignores : ∀ f y v, X f → y ≠ z → (m.store.bindings f).get? y = some v → v.Ignores z X
  fresh : ∀ f, m.store.frames.size ≤ f → X f

end ignorance

namespace Machine.SameBut

variable {z : String} {X : Nat → Prop} {m m' : Machine} (h : m.SameBut z X m')
include h

theorem get?_eq {y : String} (hy : y ≠ z) (f : Nat) :
    m'.store.get? ⟨f⟩ y = m.store.get? ⟨f⟩ y := by
  -- on the number of the frame, since the frame around it is older
  induction f using Nat.strongRecOn with
  | ind f ih =>
    rw [Store.get?_eq, Store.get?_eq, h.bindings_eq f y hy, h.outer_eq f]
    apply congrArg
    exact Option.bind_congr fun g hg => ih g (m.store.outer_lt f g hg)

theorem get?_ignores {y : String} (hy : y ≠ z) {v : Value} (f : Nat) (hf : X f)
    (hv : m.store.get? ⟨f⟩ y = some v) : v.Ignores z X := by
  induction f using Nat.strongRecOn with
  | ind f ih =>
    rw [Store.get?_eq, Option.or_eq_some_iff] at hv
    rcases hv with hv | ⟨-, hv⟩
    · exact h.ignores f y v hf hy hv
    · obtain ⟨g, hg, hv⟩ := Option.bind_eq_some_iff.1 hv
      exact ih g (m.store.outer_lt f g hg) (h.outer_mem f g hf hg) hv

theorem define {v : Value} (hv : v.Ignores z X) (scope : Scope) (y : String) :
    ({ m with store := m.store.set scope y v } : Machine).SameBut z X
      { m' with store := m'.store.set scope y v } where
  size_eq := by rw [Store.size_set, Store.size_set, h.size_eq]
  marks_eq := h.marks_eq
  left_eq := h.left_eq
  outer_eq f := by rw [Store.outer?_set, Store.outer?_set, h.outer_eq]
  bindings_eq f x hx := by
    rw [Store.bindings_set, Store.bindings_set, h.size_eq]
    split
    · rw [Bindings.get?_set, Bindings.get?_set, h.bindings_eq f x hx]
    · exact h.bindings_eq f x hx
  outer_mem f g hf hg := by
    rw [Store.outer?_set] at hg
    exact h.outer_mem f g hf hg
  ignores f x w hf hx hw := by
    rw [Store.bindings_set] at hw
    split at hw
    · rw [Bindings.get?_set] at hw
      split at hw
      · exact Option.some.inj hw ▸ hv
      · exact h.ignores f x w hf hx hw
    · exact h.ignores f x w hf hx hw
  fresh f hf := by
    rw [Store.size_set] at hf
    exact h.fresh f hf

theorem push {outer outer' : Option Nat} (hsame : outer' = outer) (hX : ∀ f ∈ outer, X f)
    (hlt : ∀ f ∈ outer, f < m.store.frames.size) (hlt' : ∀ f ∈ outer', f < m'.store.frames.size) :
    ({ m with store := (m.store.push outer hlt).2 } : Machine).SameBut z X
      { m' with store := (m'.store.push outer' hlt').2 } where
  size_eq := by rw [Store.size_push, Store.size_push, h.size_eq]
  marks_eq := h.marks_eq
  left_eq := h.left_eq
  outer_eq f := by rw [Store.outer?_push, Store.outer?_push, h.size_eq, h.outer_eq, hsame]
  bindings_eq f x hx := by rw [Store.bindings_push, Store.bindings_push, h.bindings_eq f x hx]
  outer_mem f g hf hg := by
    rw [Store.outer?_push] at hg
    split at hg
    · exact hX g hg
    · exact h.outer_mem f g hf hg
  ignores f x w hf hx hw := by
    rw [Store.bindings_push] at hw
    exact h.ignores f x w hf hx hw
  fresh f hf := by
    rw [Store.size_push] at hf
    exact h.fresh f (Nat.le_of_succ_le hf)

theorem marked (n : Nat) : ({ m with marks := n } : Machine).SameBut z X { m' with marks := n } where
  size_eq := h.size_eq
  marks_eq := rfl
  left_eq := h.left_eq
  outer_eq := h.outer_eq
  bindings_eq := h.bindings_eq
  outer_mem := h.outer_mem
  ignores := h.ignores
  fresh := h.fresh

theorem written {s s' : Sink} (hleft : s.left = s'.left) :
    ({ m with sink := s } : Machine).SameBut z X { m' with sink := s' } where
  size_eq := h.size_eq
  marks_eq := h.marks_eq
  left_eq := hleft
  outer_eq := h.outer_eq
  bindings_eq := h.bindings_eq
  outer_mem := h.outer_mem
  ignores := h.ignores
  fresh := h.fresh

end Machine.SameBut

namespace Action

variable {z : String} {X : Nat → Prop} {α β : Type}

/-- Neither run ends, or both do with one result, for which `Q` holds, and the machines still differ in nothing else. -/
inductive Agree (z : String) (X : Nat → Prop) (Q : α → Prop) :
    Option (α × Machine) → Option (α × Machine) → Prop
  | neither : Agree z X Q none none
  | both {a : α} {n n' : Machine} : Q a → n.SameBut z X n' → Agree z X Q (some (a, n)) (some (a, n'))

/-- The action cannot tell what `z` is bound to, nor in which order hashes are shown. -/
def Ignores (z : String) (X : Nat → Prop) (x : Action α) (Q : α → Prop) : Prop :=
  ∀ m m', m.SameBut z X m' → Agree z X Q (x m) (x m')

variable {Q : α → Prop} {R : β → Prop}

theorem ignores_pure {a : α} (h : Q a) : Ignores z X (pure a) Q :=
  fun _ _ hm => .both h hm

theorem Ignores.bind {x : Action α} {f : α → Action β} (hx : Ignores z X x Q)
    (hf : ∀ a, Q a → Ignores z X (f a) R) : Ignores z X (x >>= f) R := by
  intro m m' hm
  have hfirst := hx m m' hm
  show Agree z X R ((x m).bind fun p => f p.1 p.2) ((x m').bind fun p => f p.1 p.2)
  generalize x m = r at hfirst ⊢
  generalize x m' = r' at hfirst ⊢
  cases hfirst with
  | neither => exact .neither
  | both ha hn => exact hf _ ha _ _ hn

theorem ignores_lookup? {scope : Scope} {y : String} (hscope : X scope.frame) (hy : y ≠ z) :
    Ignores z X (lookup? scope y) fun found => ∀ v ∈ found, v.Ignores z X := by
  intro m m' hm
  rw [lookup?_apply, lookup?_apply, hm.get?_eq hy]
  exact .both (fun v hv => hm.get?_ignores hy _ hscope hv) hm

theorem ignores_define {v : Value} (hv : v.Ignores z X) (scope : Scope) (y : String) :
    Ignores z X (define scope y v) fun _ => True :=
  fun _ _ hm => .both trivial (hm.define hv scope y)

theorem ignores_newChild {outer : Scope} (houter : X outer.frame) :
    Ignores z X (newChild outer) fun scope => X scope.frame := by
  intro m m' hm
  have hframe : (m'.store.newChild outer).1 = (m.store.newChild outer).1 := congrArg Scope.mk hm.size_eq
  rw [newChild_apply, newChild_apply, hframe]
  refine .both (hm.fresh _ (Nat.le_refl _)) (hm.push ?_ ?_ _ _)
  · rw [hm.size_eq]
  · intro f hf
    obtain rfl := Option.mem_some.1 (Option.mem_filter_iff.1 hf).1
    exact houter

theorem ignores_newMark : Ignores z X newMark fun _ => True := by
  intro m m' hm
  rw [newMark_apply, newMark_apply, hm.marks_eq]
  exact .both trivial (hm.marked _)

theorem ignores_writeLine (v : Value) : Ignores z X (writeLine v) fun _ => True := by
  intro m m' hm
  obtain ⟨haccepted, hleft⟩ := Sink.write_of_left hm.left_eq (v.line_size m.order m'.order)
  rw [writeLine_apply, writeLine_apply, write_apply, write_apply, haccepted]
  exact .both trivial (hm.written hleft)

theorem ignores_newArray {vs : List Value} (h : AllEvery (Value.Avoids z X) vs) :
    Ignores z X (newArray vs) (·.Ignores z X) :=
  ignores_newMark.bind fun _ _ => ignores_pure (Value.every_array.2 ⟨trivial, h⟩)

theorem ignores_newHash {es : Entries} (h : EntriesEvery (Value.Avoids z X) es) :
    Ignores z X (newHash es) (·.Ignores z X) :=
  ignores_newMark.bind fun _ _ => ignores_pure (Value.every_hash.2 ⟨trivial, h⟩)

theorem ignores_newFunction {c : Closure} (hbody : stmtsAvoid z c.body) (hscope : X c.scope.frame) :
    Ignores z X (newFunction c) (·.Ignores z X) :=
  ignores_newMark.bind fun _ _ => ignores_pure (Value.every_function.2 ⟨hbody, hscope⟩)

end Action

namespace Builtin

variable {z : String} {X : Nat → Prop}

theorem ignores_putAll (args : List Value) :
    (putAll args).Ignores z X (·.Ignores z X) := by
  induction args with
  | nil => exact Action.ignores_pure Value.every_null
  | cons v args ih =>
    refine (Action.ignores_writeLine v).bind fun accepted _ => ?_
    split
    · exact ih
    · exact Action.ignores_pure (Value.every_error _)

theorem ignores_call (b : Builtin) {args : List Value} (h : AllEvery (Value.Avoids z X) args) :
    (b.call args).Ignores z X (·.Ignores z X) := by
  have hdoes := does_call b h
  generalize b.call args = x at hdoes ⊢
  cases hdoes with
  | give hv => exact Action.ignores_pure hv
  | make _ hvs => exact Action.ignores_newArray hvs
  | write vs => exact ignores_putAll vs

end Builtin

namespace Traced

variable {z : String} {X : Nat → Prop} {α β : Type} {Q : α → Prop} {R : β → Prop}

/-- The same of two runs with their events, in which the same values are shown. -/
inductive Agree (z : String) (X : Nat → Prop) (Q : α → Prop) :
    List Event × Option (α × Machine) → List Event × Option (α × Machine) → Prop
  | neither {seen seen' : List Event} : Agree z X Q (seen, none) (seen', none)
  | both {a : α} {n n' : Machine} {seen seen' : List Event} :
    Q a → n.SameBut z X n' → shownIn seen = shownIn seen' → Agree z X Q (seen, some (a, n)) (seen', some (a, n'))

def Ignores (z : String) (X : Nat → Prop) (x : Traced α) (Q : α → Prop) : Prop :=
  ∀ m m', m.SameBut z X m' → Agree z X Q (x m) (x m')

theorem Agree.prepend {seen seen' : List Event} (hshown : shownIn seen = shownIn seen')
    {r r' : List Event × Option (α × Machine)} (h : Agree z X Q r r') :
    Agree z X Q (seen ++ r.1, r.2) (seen' ++ r'.1, r'.2) := by
  cases h with
  | neither => exact .neither
  | both ha hn hmore => exact .both ha hn (by rw [shownIn_append, shownIn_append, hshown, hmore])

theorem ignores_pure {a : α} (h : Q a) : Ignores z X (pure a) Q :=
  fun _ _ hm => .both h hm rfl

theorem Ignores.bind {x : Traced α} {f : α → Traced β} (hx : Ignores z X x Q)
    (hf : ∀ a, Q a → Ignores z X (f a) R) : Ignores z X (x >>= f) R := by
  intro m m' hm
  have hfirst := hx m m' hm
  generalize hxm : x m = r, hxm' : x m' = r' at hfirst
  cases hfirst with
  | neither =>
    rw [bind_of_none hxm, bind_of_none hxm']
    exact .neither
  | both ha hn hshown =>
    rw [bind_of_some hxm, bind_of_some hxm']
    exact (hf _ ha _ _ hn).prepend hshown

theorem ignores_step {x : Action α} (hx : x.Ignores z X Q) : Ignores z X (Host.step x) Q := by
  intro m m' hm
  have hstep := hx m m' hm
  change Agree z X Q (step x m) (step x m')
  unfold step
  generalize x m = r, x m' = r' at hstep ⊢
  cases hstep with
  | neither => exact .neither
  | both ha hn => exact .both ha hn rfl

theorem Ignores.before {x : Traced α} (hx : Ignores z X x Q) (event : Event) :
    Ignores z X (Host.before event x) Q :=
  fun m m' hm => (hx m m' hm).prepend (Eq.refl (shownIn [event]))

theorem Ignores.noting {x : Traced α} (hx : Ignores z X x Q) (event : α → Event) :
    Ignores z X (Host.noting event x) Q :=
  hx.bind fun _ ha _ _ hm => .both ha hm rfl

/-- One run ends if the other does, with the same result. -/
theorem Ignores.runs {x : Traced α} (hx : Ignores z X x Q) {m m' : Machine} (hm : m.SameBut z X m') :
    (x.action m' = none ↔ x.action m = none) ∧ ∀ a n, x.action m = some (a, n) →
      ∃ n', x.action m' = some (a, n') ∧ n.SameBut z X n' ∧ shownIn (x m').1 = shownIn (x m).1 := by
  have hagree := hx m m' hm
  unfold action
  generalize x m = r, x m' = r' at hagree
  cases hagree with
  | neither => exact ⟨Iff.rfl, nofun⟩
  | @both a n n' _ _ _ hn hshown =>
    refine ⟨⟨nofun, nofun⟩, fun b o h => ?_⟩
    cases h
    exact ⟨n', rfl, hn, hshown.symm⟩

end Traced

namespace Guarded

variable {z : String} {X : Nat → Prop} {α β : Type} {Q : α → Prop} {R : β → Prop}

/-- As for other runs, where the functions in a signal that leaves ignore the name too. -/
def Ignores (z : String) (X : Nat → Prop) (g : ExceptT Value Traced α) (Q : α → Prop) : Prop :=
  Traced.Ignores z X g.run fun
    | .ok a => Q a
    | .error v => v.Ignores z X

theorem ignores_pure {a : α} (h : Q a) : Ignores z X (pure a) Q :=
  Traced.ignores_pure h

theorem ignores_throw {v : Value} (h : v.Ignores z X) :
    Ignores z X (throw v : ExceptT Value Traced α) Q :=
  Traced.ignores_pure h

theorem Ignores.bind {g : ExceptT Value Traced α} {f : α → ExceptT Value Traced β} (hg : Ignores z X g Q)
    (hf : ∀ a, Q a → Ignores z X (f a) R) : Ignores z X (g >>= f) R := by
  refine Traced.Ignores.bind hg fun out hout => ?_
  cases out with
  | ok a => exact hf a hout
  | error v => exact Traced.ignores_pure hout

theorem Ignores.before {g : ExceptT Value Traced α} (hg : Ignores z X g Q) (event : Event) :
    Ignores z X (before event g) Q :=
  Traced.Ignores.before hg event

theorem ignores_lift {x : Traced α} (hx : x.Ignores z X Q) : Ignores z X (x : ExceptT Value Traced α) Q :=
  Traced.Ignores.bind hx fun _ ha => Traced.ignores_pure ha

theorem ignores_plain {x : Traced Value} (hx : x.Ignores z X (·.Ignores z X)) :
    Ignores z X (plain x) (·.Ignores z X) := by
  refine (ignores_lift hx).bind fun v hv => ?_
  split
  · exact ignores_throw hv
  · exact ignores_pure hv

theorem Ignores.result {g : ExceptT Value Traced Value} (hg : Ignores z X g (·.Ignores z X)) :
    (result g).Ignores z X (·.Ignores z X) := by
  refine Traced.Ignores.bind hg fun out hout => ?_
  cases out with
  | ok v | error v => exact Traced.ignores_pure hout

end Guarded

namespace Eval
open Guarded

variable {z : String} {X : Nat → Prop} {ev : Scope → Expr → Traced Value}

/-- The evaluation of the expressions inside cannot tell what `z` is bound to. -/
def Ignores (z : String) (X : Nat → Prop) (ev : Scope → Expr → Traced Value) : Prop :=
  ∀ scope e, X scope.frame → e.avoids z → (ev scope e).Ignores z X (·.Ignores z X)

variable (hev : Ignores z X ev) {scope : Scope} (hscope : X scope.frame)
include hev hscope

theorem Ignores.plain {e : Expr} (he : e.avoids z) :
    Guarded.Ignores z X (plain (ev scope e)) (·.Ignores z X) :=
  ignores_plain (hev scope e hscope he)

theorem ignores_values {es : List Expr} (hes : allAvoid z es) :
    Guarded.Ignores z X (values ev scope es) (AllEvery (Value.Avoids z X)) := by
  induction es with
  | nil => exact ignores_pure allEvery_nil
  | cons e es ih =>
    obtain ⟨he, hes⟩ := Bool.and_eq_true_iff.1 hes
    exact (hev.plain hscope he).bind fun v hv => (ih hes).bind fun vs hvs =>
      ignores_pure (allEvery_cons.2 ⟨hv, hvs⟩)

theorem ignores_entries {pairs : List (Expr × Expr)} (hpairs : pairsAvoid z pairs) {acc : Entries}
    (hacc : EntriesEvery (Value.Avoids z X) acc) :
    Guarded.Ignores z X (entries ev scope pairs acc) (EntriesEvery (Value.Avoids z X)) := by
  induction pairs generalizing acc with
  | nil => exact ignores_pure hacc
  | cons pair pairs ih =>
    simp only [pairsAvoid, Bool.and_eq_true] at hpairs
    obtain ⟨⟨hk, he⟩, hpairs⟩ := hpairs
    refine (hev.plain hscope hk).bind fun key hkey => ?_
    split
    · exact ignores_throw (Value.every_error _)
    · exact (hev.plain hscope he).bind fun v hv => ih hpairs (hacc.insert hkey hv)

theorem ignores_statement {s : Stmt} (hs : s.avoids z) :
    (statement ev scope s).Ignores z X (·.Ignores z X) := by
  cases s with
  | bind name e =>
    exact ((hev.plain hscope hs).bind fun v hv =>
      (ignores_lift (Traced.ignores_step (Action.ignores_define hv scope name.name))).bind fun _ _ =>
        ignores_pure hv).result.noting .gave
  | give e =>
    exact ((hev.plain hscope hs).bind fun v hv => ignores_pure (Value.every_returned.2 hv)).result.noting .gave
  | expr e => exact hev scope e hscope hs

theorem ignores_block {stmts : List Stmt} (hstmts : stmtsAvoid z stmts) {last : Value}
    (hlast : last.Ignores z X) :
    (block ev scope stmts last).Ignores z X (·.Ignores z X) := by
  induction stmts generalizing last with
  | nil => exact Traced.ignores_pure hlast
  | cons s stmts ih =>
    obtain ⟨hs, hstmts⟩ := Bool.and_eq_true_iff.1 hstmts
    refine (ignores_statement hev hscope hs).bind fun v hv => ?_
    split
    · exact Traced.ignores_pure hv
    · exact ih hstmts hv

theorem ignores_unwrapped {stmts : List Stmt} (hstmts : stmtsAvoid z stmts) :
    Traced.Ignores z X (do return (← block ev scope stmts .null).unwrapped) (·.Ignores z X) :=
  (ignores_block hev hscope hstmts Value.every_null).bind fun _ hv => Traced.ignores_pure hv.unwrapped

theorem ignores_program {stmts : List Stmt} (hstmts : stmtsAvoid z stmts) :
    (program ev scope stmts).Ignores z X (·.Ignores z X) :=
  (ignores_unwrapped hev hscope hstmts).noting .left

omit hev hscope in
theorem ignores_bindAll (scope : Scope) (params : List Ident) {args : List Value}
    (hargs : AllEvery (Value.Avoids z X) args) :
    Traced.Ignores z X (bindAll scope params args) fun _ => True := by
  induction params generalizing args with
  | nil => exact Traced.ignores_pure trivial
  | cons p ps ih =>
    cases args with
    | nil => exact Traced.ignores_pure trivial
    | cons v vs =>
      obtain ⟨hv, hvs⟩ := allEvery_cons.1 hargs
      exact (Traced.ignores_step (Action.ignores_define hv scope p.name)).bind fun _ _ => ih hvs

omit hscope in
theorem ignores_apply {f : Value} (hf : f.Ignores z X) {args : List Value}
    (hargs : AllEvery (Value.Avoids z X) args) :
    (apply ev f args).Ignores z X (·.Ignores z X) := by
  refine Traced.Ignores.before (Traced.Ignores.noting ?_ .left) (.called f args)
  cases f with
  | function mark c =>
    obtain ⟨hbody, hscope⟩ := Value.every_function.1 hf
    dsimp only
    split
    · exact Traced.ignores_pure (Value.every_error _)
    · exact (Traced.ignores_step (Action.ignores_newChild hscope)).bind fun scope hinner =>
        (ignores_bindAll scope c.params hargs).bind fun _ _ => ignores_unwrapped hev hinner hbody
  | builtinAt ref b => exact (Traced.ignores_step (Builtin.ignores_call b hargs)).before (.builtin b args)
  | _ => exact Traced.ignores_pure (Value.every_error _)

omit hev in
theorem ignores_ident {y : String} (hy : y ≠ z) :
    (ident scope y).Ignores z X (·.Ignores z X) := by
  refine (Action.ignores_lookup? hscope hy).bind fun found hfound => ?_
  split
  · exact Action.ignores_pure (hfound _ rfl)
  · split
    · exact Action.ignores_pure (Value.every_builtin _)
    · exact Action.ignores_pure (Value.every_error _)

theorem ignores_expression {e : Expr} (he : e.avoids z) :
    (expression ev scope e).Ignores z X (·.Ignores z X) := by
  cases e with
  | ident id => exact Traced.ignores_step (ignores_ident hscope (of_decide_eq_true he))
  | int n => exact Traced.ignores_pure (Value.every_integer n)
  | string s => exact Traced.ignores_pure (Value.every_string s)
  | bool b => exact Traced.ignores_pure (Value.every_boolean b)
  | unary op right =>
    have hright : right.avoids z := he
    exact ((hev.plain hscope hright).bind fun v _ =>
      (ignores_pure (Value.every_unary op v)).before (.unary v)).result
  | binary left op right =>
    obtain ⟨hleft, hright⟩ := Bool.and_eq_true_iff.1 he
    exact ((hev.plain hscope hleft).bind fun a _ => (hev.plain hscope hright).bind fun b _ =>
      (ignores_pure (Value.every_binary op a b)).before (.binary a b)).result
  | cond test yes no =>
    cases no with
    | none =>
      obtain ⟨htest, hyes⟩ := Bool.and_eq_true_iff.1 he
      refine ((hev.plain hscope htest).bind fun v _ => ?_).result
      split
      · exact ignores_lift (ignores_block hev hscope hyes Value.every_null)
      · exact ignores_pure Value.every_null
    | some no =>
      simp only [Expr.avoids, Bool.and_eq_true] at he
      obtain ⟨⟨htest, hyes⟩, hno⟩ := he
      refine ((hev.plain hscope htest).bind fun v _ => ?_).result
      split
      · exact ignores_lift (ignores_block hev hscope hyes Value.every_null)
      · exact ignores_lift (ignores_block hev hscope hno Value.every_null)
  | function params body => exact Traced.ignores_step (Action.ignores_newFunction he hscope)
  | call callee args =>
    obtain ⟨hcallee, hargs⟩ := Bool.and_eq_true_iff.1 he
    exact ((hev.plain hscope hcallee).bind fun f hf => (ignores_values hev hscope hargs).bind fun vs hvs =>
      ignores_lift (ignores_apply hev hf hvs)).result
  | array elements =>
    exact ((ignores_values hev hscope he).bind fun vs hvs =>
      ignores_lift (Traced.ignores_step (Action.ignores_newArray hvs))).result
  | index left index =>
    obtain ⟨hleft, hindex⟩ := Bool.and_eq_true_iff.1 he
    exact ((hev.plain hscope hleft).bind fun a ha => (hev.plain hscope hindex).bind fun b _ =>
      (ignores_pure (ha.indexed b)).before (.indexed a b)).result
  | hash pairs =>
    exact ((ignores_entries hev hscope he .nil).bind fun es hes =>
      ignores_lift (Traced.ignores_step (Action.ignores_newHash hes))).result

end Eval

/-- Evaluation cannot tell what a name is bound to that it comes to look up nowhere, whatever the depth. -/
theorem ignores_eval (z : String) (X : Nat → Prop) (depth : Nat) : Eval.Ignores z X (Traced.eval depth) := by
  induction depth with
  | zero => exact fun _ _ _ _ _ _ _ => .neither
  | succ depth ih => exact fun _ _ hscope he => (Eval.ignores_expression ih hscope he).noting .gave

theorem Store.bindings_of_size_le {s : Store} {f : Nat} (h : s.frames.size ≤ f) : s.bindings f = [] := by
  simp [bindings, Array.getElem?_eq_none h]

theorem Store.outer?_of_size_le {s : Store} {f : Nat} (h : s.frames.size ≤ f) : s.outer? f = none := by
  simp [outer?, Array.getElem?_eq_none h]

/-- Before evaluation begins, one more binding of a name makes no other difference. -/
theorem Machine.sameBut_set {m : Machine} {scope : Scope} {z : String}
    (hbodies : ∀ f y w mark c, m.Reaches scope f → (m.store.bindings f).get? y = some w →
      w.Has (.function mark c) → stmtsAvoid z c.body) (e : Scope) (v : Value) (order : Arrangement) :
    m.SameBut z (fun f => m.Reaches scope f ∨ m.store.frames.size ≤ f)
      { m with store := m.store.set e z v, order := order } where
  size_eq := Store.size_set ..
  marks_eq := rfl
  left_eq := rfl
  outer_eq f := Store.outer?_set ..
  bindings_eq f y hy := by
    rw [Store.bindings_set]
    split
    · rw [Bindings.get?_set, if_neg hy]
    · rfl
  outer_mem f g hf hg := by
    rcases hf with hf | hf
    · exact Or.inl (hf.outer hg)
    · rw [Store.outer?_of_size_le hf] at hg
      exact nomatch hg
  ignores f y w hf _ hw := by
    rcases hf with hf | hf
    · intro object hobject
      cases object with
      | function mark c => exact ⟨hbodies f y w mark c hf hw hobject, Or.inl (hf.captured hw hobject)⟩
      | _ => exact trivial
    · rw [Store.bindings_of_size_le hf] at hw
      exact nomatch hw
  fresh f hf := Or.inr hf

/-- Where a name is looked up neither in a program nor in the body of a function that can be reached from the
scope of the program, it does not matter whether and where it is bound, even if it is that of a builtin
function: the program ends with one binding more if it does without it, with the same result, and all other names
mean the same after it in all scopes. Both runs show the same values, one after the other. So the output is the same
too, unless hashes are shown in another order and one with two or more pairs is shown. -/
theorem unused_name_ignored (depth : Nat) (m : Machine) (scope e : Scope) (z : String) (v : Value)
    (order : Arrangement) (stmts : List Stmt) (hstmts : stmtsAvoid z stmts)
    (hbodies : ∀ f y w mark c, m.Reaches scope f → (m.store.bindings f).get? y = some w →
      w.Has (.function mark c) → stmtsAvoid z c.body) :
    let run := Eval.program (eval depth) scope stmts
    let traced := Eval.program (Traced.eval depth) scope stmts
    let m' : Machine := { m with store := m.store.set e z v, order := order }
    let shown := shownIn (traced m).1
    (∀ m₀, (traced m₀).2 = run m₀) ∧ (run m' = none ↔ run m = none) ∧
      ∀ r n, run m = some (r, n) → ∃ n', run m' = some (r, n') ∧ shownIn (traced m').1 = shown ∧
        m.Shows n shown ∧ m'.Shows n' shown ∧
        (order = m.order ∨ (∀ w ∈ shown, w.showsLargeHash = false) → n'.sink = n.sink) ∧
        ∀ f y, y ≠ z → n'.store.get? f y = n.store.get? f y := by
  intro run traced m' shown
  have hrun : traced.action = run := Traced.action_program (Traced.action_eval depth) scope stmts
  have htells : traced.Tells := Traced.tells_program (Traced.tells_eval depth) scope stmts
  obtain ⟨hends, hsame⟩ := (Eval.ignores_program (ignores_eval z _ depth) (Or.inl .own) hstmts).runs
    (Machine.sameBut_set hbodies e v order)
  change (traced.action m' = none ↔ traced.action m = none) at hends
  rw [hrun] at hends hsame
  refine ⟨congrFun hrun, hends, fun r n h => ?_⟩
  obtain ⟨n', h', hn, hshown⟩ := hsame r n h
  have hshows : m.Shows n shown := htells m r n (by rw [hrun, h])
  have hshows' : m'.Shows n' (shownIn (traced m').1) := htells m' r n' (by rw [hrun, h'])
  rw [hshown] at hshows'
  refine ⟨n', h', hshown, hshows, hshows', fun hsmall => ?_, fun f y hy => hn.get?_eq hy f.frame⟩
  -- the values shown are the same, so only the order of hashes can tell the outputs apart
  have hlines : shown.map (·.line order) = shown.map (·.line m.order) := by
    rcases hsmall with rfl | hsmall
    · rfl
    · exact List.map_congr_left fun w hw => Value.line_of_small (hsmall w hw)
  rw [hshows'.sink_eq, hshows.sink_eq, hlines]

/-- After `let f = fn(x) { puts(x); len(x) };` it does not matter to `f("ab")` whether `rest` is bound. -/
theorem unused_name_ignored_of_builtin :
    let id (name : String) : Ident := ⟨name, .first, .first⟩
    let call (name : String) (e : Expr) : Expr := .call (.ident (id name)) [e]
    let x : Expr := .ident (id "x")
    let c : Closure := ⟨[id "x"], [.expr (call "puts" x), .expr (call "len" x)], ⟨0⟩⟩
    let m : Machine := ⟨Store.empty.newGlobal.2.set ⟨0⟩ "f" (.function 0 c), 1, .unlimited, .sorted⟩
    let m' : Machine := { m with store := m.store.set ⟨0⟩ "rest" (.integer 7) }
    let run := Eval.program (eval 3) ⟨0⟩ [.expr (call "f" (.string "ab"))]
    ∃ n n', run m = some (.integer 2, n) ∧ n.sink.written = "ab\n".toUTF8 ∧ run m' = some (.integer 2, n') ∧
      n'.sink = n.sink ∧ ∀ f y, y ≠ "rest" → n'.store.get? f y = n.store.get? f y := by
  intro id call x c m m' run
  have hrun : ∃ n, run m = some (.integer 2, n) ∧ n.sink.written = "ab\n".toUTF8 :=
    ⟨_, by with_unfolding_all rfl, by with_unfolding_all rfl⟩
  have hbindings (f : Nat) (y : String) (w : Value) (hw : (m.store.bindings f).get? y = some w) :
      w = .function 0 c := by
    obtain ⟨before, after, hbs, -⟩ := List.lookup_eq_some_iff.1 hw
    have hmem : (y, w) ∈ m.store.bindings f := hbs ▸ List.mem_append_right before List.mem_cons_self
    cases f with
    | zero => exact congrArg Prod.snd (List.mem_singleton.1 hmem)
    | succ f => exact nomatch hmem
  have hbodies (f : Nat) (y : String) (w : Value) (mark : Nat) (d : Closure) (_ : m.Reaches ⟨0⟩ f)
      (hw : (m.store.bindings f).get? y = some w) (hd : w.Has (.function mark d)) :
      stmtsAvoid "rest" d.body := by
    obtain rfl := hbindings f y w hw
    cases hd
    decide
  obtain ⟨n, hn, hwritten⟩ := hrun
  obtain ⟨n', hn', -, -, -, hsink, hsame⟩ := (unused_name_ignored 3 m ⟨0⟩ ⟨0⟩ "rest" (.integer 7) .sorted
    [.expr (call "f" (.string "ab"))] (by decide) hbodies).2.2 (.integer 2) n hn
  exact ⟨n, n', hn, hwritten, hn', hsink (Or.inl rfl), hsame⟩

end Monkey
