import Monkey.Proofs.Evaluation
import Monkey.Proofs.Objects
import Monkey.Proofs.Signals

namespace Monkey

/-- The mark of an array, a hash or a function. -/
def Value.mark? : Value → Option Nat
  | .array mark _ | .hash mark _ | .function mark _ => some mark
  | _ => none

theorem Value.ref?_of_mark? {v : Value} {k : Nat} (h : v.mark? = some k) : v.ref? = some (.made k) := by
  cases v with
  | array mark vs | hash mark es | function mark c => exact congrArg (Option.map Ref.made) h
  | _ => exact nomatch h

/-- The object is there from the beginning, or it is one of those that were made, in the place that its mark tells. -/
def Value.IsOneOf (objects : List Value) (object : Value) : Prop :=
  object.IsShared ∨ ∃ k ∈ object.mark?, objects[k]? = some object

/-- What evaluation has made so far: the arrays, hashes and functions in the order in which they were made,
and the number of frames. How hashes are shown is there from the beginning. -/
structure Ledger where
  objects : List Value
  frames : Nat
  order : Arrangement

namespace Ledger

/-- Later, more has been made. -/
structure Within (L L' : Ledger) : Prop where
  objects : L.objects <+: L'.objects
  frames : L.frames ≤ L'.frames
  order : L'.order = L.order

theorem Within.refl (L : Ledger) : L.Within L :=
  ⟨List.prefix_rfl, Nat.le_refl _, rfl⟩

theorem Within.trans {L L' L'' : Ledger} (h : L.Within L') (h' : L'.Within L'') : L.Within L'' :=
  ⟨h.objects.trans h'.objects, Nat.le_trans h.frames h'.frames, h'.order.trans h.order⟩

theorem Within.getElem?_eq {L L' : Ledger} (h : L.Within L') {k : Nat} (hk : k < L.objects.length) :
    L'.objects[k]? = L.objects[k]? := by
  obtain ⟨more, hmore⟩ := h.objects
  rw [← hmore, List.getElem?_append_left hk]

/-- The object is one of those that are there, and if it is a function, so is its scope. -/
structure Lists (L : Ledger) (object : Value) : Prop where
  isOneOf : object.IsOneOf L.objects
  scope_lt : ∀ mark c, object = .function mark c → c.scope.frame < L.frames

instance (L : Ledger) : OfShared L.Lists :=
  ⟨fun _ h => ⟨Or.inl h, fun _ _ hc => nomatch hc ▸ h⟩⟩

theorem Lists.later {L L' : Ledger} {object : Value} (ho : L.Lists object) (h : L.Within L') :
    L'.Lists object := by
  refine ⟨ho.isOneOf.imp_right ?_, fun mark c hc => Nat.lt_of_lt_of_le (ho.scope_lt mark c hc) h.frames⟩
  rintro ⟨k, hk, hobject⟩
  exact ⟨k, hk, by rw [h.getElem?_eq (List.getElem?_eq_some_iff.1 hobject).1, hobject]⟩

/-- One more object, marked with its place. -/
def make (L : Ledger) (object : Value) : Ledger :=
  ⟨L.objects ++ [object], L.frames, L.order⟩

theorem within_make (L : Ledger) (object : Value) : L.Within (L.make object) :=
  ⟨List.prefix_append .., Nat.le_refl _, rfl⟩

/-- Nothing but the new object was not there before. -/
theorem eq_of_make_getElem? {L : Ledger} {object other : Value} {k : Nat} (hk : L.objects.length ≤ k)
    (h : (L.make object).objects[k]? = some other) : k = L.objects.length ∧ object = other := by
  rw [make, List.getElem?_append_right hk, List.getElem?_singleton] at h
  split at h
  · next hzero => exact ⟨by omega, Option.some.inj h⟩
  · exact nomatch h

def push (L : Ledger) : Ledger :=
  ⟨L.objects, L.frames + 1, L.order⟩

theorem within_push (L : Ledger) : L.Within L.push :=
  ⟨List.prefix_rfl, Nat.le_succ _, rfl⟩

end Ledger

/-- All objects in the value are in the ledger or there from the beginning. -/
abbrev Value.Known (L : Ledger) (v : Value) : Prop :=
  v.Every L.Lists

abbrev AllKnown (L : Ledger) (vs : List Value) : Prop :=
  AllEvery L.Lists vs

abbrev EntriesKnown (L : Ledger) (es : Entries) : Prop :=
  EntriesEvery L.Lists es

section later

variable {L L' : Ledger} (h : L.Within L')
include h

theorem Value.Known.later {v : Value} (hv : v.Known L) : v.Known L' :=
  hv.mono fun _ ho => ho.later h

theorem AllKnown.later {vs : List Value} (hvs : AllKnown L vs) : AllKnown L' vs :=
  fun v hv => Value.Known.later h (hvs v hv)

theorem EntriesKnown.later {es : Entries} (hes : EntriesKnown L es) : EntriesKnown L' es :=
  fun k key v he => (hes k key v he).imp (Value.Known.later h) (Value.Known.later h)

end later

/-- The ledger is that of what evaluation made on its way to the machine, and nothing else is bound. -/
structure Machine.Follows (m : Machine) (L : Ledger) : Prop where
  marks_eq : m.marks = L.objects.length
  size_eq : m.store.frames.size = L.frames
  order_eq : m.order = L.order
  known : ∀ f y v, (m.store.bindings f).get? y = some v → v.Known L

theorem Machine.follows_new (limit : Option Nat) (order : Arrangement) :
    (Machine.new limit order).Follows ⟨[], 0, order⟩ where
  marks_eq := rfl
  size_eq := rfl
  order_eq := rfl
  known f y v h := by simp [Machine.new, Store.empty, Store.bindings, Bindings.get?] at h

namespace Machine.Follows

variable {m : Machine} {L : Ledger} (h : m.Follows L)
include h

theorem get?_known {v : Value} {scope : Scope} {y : String} (hv : m.store.get? scope y = some v) :
    v.Known L := by
  obtain ⟨f, -, hf⟩ := List.exists_of_findSome?_eq_some hv
  exact h.known f y v hf

theorem define {v : Value} (hv : v.Known L) (scope : Scope) (y : String) :
    ({ m with store := m.store.set scope y v } : Machine).Follows L where
  marks_eq := h.marks_eq
  size_eq := by rw [Store.size_set, h.size_eq]
  order_eq := h.order_eq
  known f x w hw := by
    rw [Store.bindings_set] at hw
    split at hw
    · rw [Bindings.get?_set] at hw
      split at hw
      · exact Option.some.inj hw ▸ hv
      · exact h.known f x w hw
    · exact h.known f x w hw

theorem push (outer : Option Nat) (hlt : ∀ f ∈ outer, f < m.store.frames.size) :
    ({ m with store := (m.store.push outer hlt).2 } : Machine).Follows L.push where
  marks_eq := h.marks_eq
  size_eq := by rw [Store.size_push, h.size_eq]; rfl
  order_eq := h.order_eq
  known f y v hv := by
    rw [Store.bindings_push] at hv
    exact (h.known f y v hv).later L.within_push

theorem make (object : Value) :
    ({ m with marks := m.marks + 1 } : Machine).Follows (L.make object) where
  marks_eq := by simp [Ledger.make, h.marks_eq]
  size_eq := h.size_eq
  order_eq := h.order_eq
  known f y v hv := (h.known f y v hv).later (L.within_make object)

theorem written (s : Sink) : ({ m with sink := s } : Machine).Follows L :=
  ⟨h.marks_eq, h.size_eq, h.order_eq, h.known⟩

/-- What is made with the next mark is one of what is listed then. -/
theorem isOneOf_make {object : Value} (hmark : object.mark? = some m.marks) :
    object.IsOneOf (L.make object).objects :=
  Or.inr ⟨m.marks, hmark, by simp [Ledger.make, h.marks_eq]⟩

end Machine.Follows

/-- All objects in what is seen are listed, and a machine that is seen follows what was listed by then. -/
def Event.Known (L : Ledger) : Event → Prop
  | reached m => ∃ L', L'.Within L ∧ m.Follows L'
  | gave v | unary v | left v => v.Known L
  | binary a b | indexed a b => a.Known L ∧ b.Known L
  | called f args => f.Known L ∧ AllKnown L args
  | builtin _ args => AllKnown L args

theorem Event.Known.later {L L' : Ledger} (h : L.Within L') {event : Event} (he : event.Known L) :
    event.Known L' := by
  cases event with
  | reached m =>
    obtain ⟨L₀, hL, hm⟩ := he
    exact ⟨L₀, hL.trans h, hm⟩
  | gave v | unary v | left v => exact Value.Known.later h he
  | binary a b | indexed a b => exact he.imp (Value.Known.later h) (Value.Known.later h)
  | called f args => exact he.imp (Value.Known.later h) (AllKnown.later h)
  | builtin b args => exact AllKnown.later h he

/-- Whether evaluating the expression makes an object. -/
def Expr.isLiteral : Expr → Bool
  | .array _ | .hash _ | .function _ _ => true
  | _ => false

/-- The object is made by what leads to the machine: one literal is evaluated that gives it, or one builtin function is
called that leaves it, an array of values that were there. The last event tells the result. -/
inductive Creates (m : Machine) : Value → List Event → Event → Prop
  | literal {scope : Scope} {e : Expr} {m₀ : Machine} {inner : List Event} {object : Value} :
    e.isLiteral → Evaluates scope e m₀ (inner ++ [.reached m, .gave object]) object m →
    Creates m object inner (.gave object)
  | builtin {b : Builtin} {args vs : List Value} {k : Nat} :
    b.Makes args vs → Creates m (.array k vs) [.builtin b args] (.left (.array k vs))

/-- The object has the mark `k` and was made in one step of the run, with which the number of marks passed `k`
for the first time. -/
def MadeIn (seen : List Event) (k : Nat) (object : Value) : Prop :=
  object.mark? = some k ∧ ∃ before inner m last after, seen = before ++ inner ++ .reached m :: last :: after ∧
    Creates m object inner last ∧ m.marks = k + 1 ∧ ∀ m₀, .reached m₀ ∈ before ++ inner → m₀.marks ≤ k

namespace MadeIn

variable {seen : List Event} {k : Nat} {object : Value}

theorem append (h : MadeIn seen k object) (more : List Event) : MadeIn (seen ++ more) k object := by
  obtain ⟨hmark, before, inner, m, last, after, rfl, hcreates, hmarks, hbefore⟩ := h
  exact ⟨hmark, before, inner, m, last, after ++ more, by simp, hcreates, hmarks, hbefore⟩

theorem prepend (h : MadeIn seen k object) {first : List Event}
    (hfirst : ∀ m, .reached m ∈ first → m.marks ≤ k) : MadeIn (first ++ seen) k object := by
  obtain ⟨hmark, before, inner, m, last, after, rfl, hcreates, hmarks, hbefore⟩ := h
  refine ⟨hmark, first ++ before, inner, m, last, after, by simp, hcreates, hmarks, fun m₀ hm₀ => ?_⟩
  rw [List.append_assoc] at hm₀
  exact (List.mem_append.1 hm₀).elim (hfirst m₀) (hbefore m₀)

end MadeIn

namespace Ledger

/-- What is seen of a run that leads from one ledger to another. -/
structure Accounts (L L' : Ledger) (seen : List Event) : Prop where
  within : L.Within L'
  known : ∀ event ∈ seen, event.Known L'
  made : ∀ k object, L.objects.length ≤ k → L'.objects[k]? = some object → MadeIn seen k object

namespace Accounts

variable {L L' L'' : Ledger} {seen seen' : List Event}

/-- Nothing was made. -/
theorem quiet (hwithin : L.Within L') (hobjects : L'.objects = L.objects)
    (hknown : ∀ event ∈ seen, event.Known L') : Accounts L L' seen := by
  refine ⟨hwithin, hknown, fun k object hk hobject => ?_⟩
  rw [hobjects, List.getElem?_eq_none hk] at hobject
  exact nomatch hobject

/-- The machines that were seen had no marks but those of the objects made by then. -/
theorem marks_le (h : Accounts L L' seen) {m : Machine} (hm : .reached m ∈ seen) :
    m.marks ≤ L'.objects.length := by
  obtain ⟨L₀, hL₀, hfollows⟩ := h.known _ hm
  rw [hfollows.marks_eq]
  exact hL₀.objects.length_le

theorem append (h : Accounts L L' seen) (h' : Accounts L' L'' seen') : Accounts L L'' (seen ++ seen') := by
  refine ⟨h.within.trans h'.within, fun event hevent => ?_, fun k object hk hobject => ?_⟩
  · rcases List.mem_append.1 hevent with hevent | hevent
    · exact (h.known event hevent).later h'.within
    · exact h'.known event hevent
  · -- an object of the second part was made after all machines of the first
    by_cases hlt : k < L'.objects.length
    · rw [h'.within.getElem?_eq hlt] at hobject
      exact (h.made k object hk hobject).append seen'
    · have hle := Nat.le_of_not_lt hlt
      exact (h'.made k object hle hobject).prepend fun m hm => Nat.le_trans (h.marks_le hm) hle

/-- The last step of what was seen makes one object more. -/
theorem make {object : Value} {m : Machine} {last : Event} (h : Accounts L L' seen) (hm : m.Follows L')
    (hmark : object.mark? = some m.marks) {before inner : List Event} (hseen : seen = before ++ inner)
    (hcreates : Creates { m with marks := m.marks + 1 } object inner last) (hlast : last.Known (L'.make object)) :
    Accounts L (L'.make object) (seen ++ [.reached { m with marks := m.marks + 1 }, last]) := by
  have hwithin := L'.within_make object
  refine ⟨h.within.trans hwithin, fun event hevent => ?_, fun k other hk hother => ?_⟩
  · rcases List.mem_append.1 hevent with hevent | hevent
    · exact (h.known event hevent).later hwithin
    · rcases List.mem_cons.1 hevent with rfl | hevent
      · exact ⟨_, .refl _, hm.make object⟩
      · exact List.mem_singleton.1 hevent ▸ hlast
  · by_cases hlt : k < L'.objects.length
    · rw [hwithin.getElem?_eq hlt] at hother
      exact (h.made k other hk hother).append _
    · obtain ⟨rfl, rfl⟩ := eq_of_make_getElem? (Nat.le_of_not_lt hlt) hother
      refine ⟨hm.marks_eq ▸ hmark, before, inner, _, last, [], by rw [hseen], hcreates,
        congrArg (· + 1) hm.marks_eq, fun m₀ hm₀ => h.marks_le (hseen ▸ hm₀)⟩

end Accounts

variable {α β : Type}

/-- How a run ends that begins in a machine with the ledger `L`. -/
inductive Ends (L : Ledger) (Q : Ledger → α → Prop) : List Event × Option (α × Machine) → Prop
  | deep {L' : Ledger} {seen : List Event} : Accounts L L' seen → Ends L Q (seen, none)
  | done {L' : Ledger} {seen : List Event} {a : α} {m : Machine} :
    Accounts L L' seen → m.Follows L' → Q L' a → Ends L Q (seen, some (a, m))

/-- From then on, the run accounts for all that it makes. -/
def Keeps (L : Ledger) (x : Traced α) (Q : Ledger → α → Prop) : Prop :=
  ∀ L₁ m, L.Within L₁ → m.Follows L₁ → Ends L₁ Q (x m)

variable {L : Ledger} {Q : Ledger → α → Prop} {R : Ledger → β → Prop}

theorem keeps_pure {a : α} (h : ∀ L₁, L.Within L₁ → Q L₁ a) : L.Keeps (pure a) Q :=
  fun L₁ _ hL hm => .done (.quiet (.refl L₁) rfl fun _ h => nomatch h) hm (h L₁ hL)

theorem Keeps.bind {x : Traced α} {f : α → Traced β} (hx : L.Keeps x Q)
    (hf : ∀ L₁ a, L.Within L₁ → Q L₁ a → L₁.Keeps (f a) R) : L.Keeps (x >>= f) R := by
  intro L₁ m hL hm
  have hfirst := hx L₁ m hL hm
  generalize hxm : x m = r at hfirst
  cases hfirst with
  | deep h =>
    rw [Traced.bind_of_none hxm]
    exact .deep h
  | done h hm' hQ =>
    rw [Traced.bind_of_some hxm]
    have hsecond := hf _ _ (hL.trans h.within) hQ _ _ (.refl _) hm'
    generalize f _ _ = r' at hsecond ⊢
    -- what was seen of the first part is accounted for even if the second one does not end
    cases hsecond with
    | deep h' => exact .deep (h.append h')
    | done h' hm'' hR => exact .done (h.append h') hm'' hR

theorem Keeps.map {x : Traced α} {f : α → β} (hx : L.Keeps x Q) (hf : ∀ L₁ a, Q L₁ a → R L₁ (f a)) :
    L.Keeps (x >>= fun a => pure (f a)) R := by
  intro L₁ m hL hm
  have hfirst := hx L₁ m hL hm
  generalize hxm : x m = r at hfirst
  cases hfirst with
  | deep h =>
    rw [Traced.bind_of_none hxm]
    exact .deep h
  | done h hm' hQ =>
    rw [Traced.bind_of_some hxm, show (pure (f _) : Traced β) _ = ([], some (f _, _)) from rfl,
      List.append_nil]
    exact .done h hm' (hf _ _ hQ)

theorem keeps_note (event : Event) (h : event.Known L) : L.Keeps (Traced.note event) fun _ _ => True := by
  intro L₁ m hL hm
  refine .done (.quiet (.refl L₁) rfl fun other hother => ?_) hm trivial
  exact List.mem_singleton.1 hother ▸ h.later hL

theorem Keeps.noting {x : Traced α} {event : α → Event} (hx : L.Keeps x Q)
    (h : ∀ L₁ a, Q L₁ a → (event a).Known L₁) : L.Keeps (Traced.noting event x) Q := by
  intro L₁ m hL hm
  have hfirst := hx L₁ m hL hm
  unfold Traced.noting
  generalize hxm : x m = r at hfirst
  cases hfirst with
  | deep h =>
    rw [Traced.bind_of_none hxm]
    exact .deep h
  | done hacc hm' hQ =>
    rw [Traced.bind_of_some hxm]
    refine .done (hacc.append (.quiet (.refl _) rfl fun other hother => ?_)) hm' hQ
    exact List.mem_singleton.1 hother ▸ h _ _ hQ

/-- A step that makes no object. -/
theorem keeps_step {x : Action α}
    (h : ∀ L₁ m a m', L.Within L₁ → m.Follows L₁ → x m = some (a, m') →
      ∃ L₂, L₁.Within L₂ ∧ L₂.objects = L₁.objects ∧ m'.Follows L₂ ∧ Q L₂ a) :
    L.Keeps (Traced.step x) Q := by
  intro L₁ m hL hm
  unfold Traced.step
  cases hx : x m with
  | none => exact .deep (.quiet (.refl L₁) rfl fun _ h => nomatch h)
  | some r =>
    obtain ⟨a, m'⟩ := r
    obtain ⟨L₂, hwithin, hobjects, hm', hQ⟩ := h L₁ m a m' hL hm hx
    refine .done (.quiet hwithin hobjects fun event hevent => ?_) hm' hQ
    exact List.mem_singleton.1 hevent ▸ ⟨L₂, .refl L₂, hm'⟩

theorem keeps_define {v : Value} (hv : v.Known L) (scope : Scope) (y : String) :
    L.Keeps (Traced.step (Action.define scope y v)) fun _ _ => True := by
  refine keeps_step fun L₁ m u m' hL hm h => ?_
  obtain rfl := Action.define_eq_some.1 h
  exact ⟨L₁, .refl L₁, rfl, hm.define (hv.later hL) scope y, trivial⟩

theorem keeps_newGlobal : L.Keeps (Traced.step Action.newGlobal)
    fun L₁ scope => scope.frame < L₁.frames := by
  refine keeps_step fun L₁ m scope m' _ hm h => ?_
  obtain ⟨rfl, rfl⟩ := Action.newGlobal_eq_some.1 h
  exact ⟨L₁.push, L₁.within_push, rfl, hm.push _ _, Nat.lt_succ_of_le (Nat.le_of_eq hm.size_eq)⟩

theorem keeps_newChild (outer : Scope) : L.Keeps (Traced.step (Action.newChild outer))
    fun L₁ scope => scope.frame < L₁.frames := by
  refine keeps_step fun L₁ m scope m' _ hm h => ?_
  obtain ⟨rfl, rfl⟩ := Action.newChild_eq_some.1 h
  exact ⟨L₁.push, L₁.within_push, rfl, hm.push _ _, Nat.lt_succ_of_le (Nat.le_of_eq hm.size_eq)⟩

/-- The step makes one object of what is listed. -/
structure Makes (L : Ledger) (x : Action Value) (object : Nat → Value) : Prop where
  run_eq : ∀ m, x m = some (object m.marks, { m with marks := m.marks + 1 })
  mark?_eq : ∀ k, (object k).mark? = some k
  known : ∀ L₁ k, L.Within L₁ → (object k).IsOneOf L₁.objects → (object k).Known L₁

theorem makes_newArray {vs : List Value} (hvs : AllKnown L vs) : L.Makes (Action.newArray vs) (.array · vs) :=
  ⟨fun _ => rfl, fun _ => rfl, fun _ _ hL h => Value.every_array.2 ⟨⟨h, nofun⟩, hvs.later hL⟩⟩

theorem makes_newHash {es : Entries} (hes : EntriesKnown L es) : L.Makes (Action.newHash es) (.hash · es) :=
  ⟨fun _ => rfl, fun _ => rfl, fun _ _ hL h => Value.every_hash.2 ⟨⟨h, nofun⟩, hes.later hL⟩⟩

theorem makes_newFunction {c : Closure} (hscope : c.scope.frame < L.frames) :
    L.Makes (Action.newFunction c) (.function · c) := by
  refine ⟨fun _ => rfl, fun _ => rfl, fun L₁ k hL h => Value.every_function.2 ⟨h, fun mark d hd => ?_⟩⟩
  cases hd
  exact Nat.lt_of_lt_of_le hscope hL.frames

theorem Makes.known_make {x : Action Value} {object : Nat → Value} (hx : L.Makes x object) {m : Machine}
    (hm : m.Follows L) : (object m.marks).Known (L.make (object m.marks)) :=
  hx.known _ _ (L.within_make _) (hm.isOneOf_make (hx.mark?_eq _))

end Ledger

theorem Builtin.putAll_eq_some {vs : List Value} {m m' : Machine} {v : Value}
    (h : putAll vs m = some (v, m')) :
    (v = .null ∨ v = .error (.outputFailed .sinkFull)) ∧ ∃ s, m' = { m with sink := s } := by
  induction vs generalizing m with
  | nil =>
    obtain ⟨rfl, rfl⟩ := Action.pure_eq_some.1 h
    exact ⟨Or.inl rfl, m.sink, rfl⟩
  | cons w vs ih =>
    obtain ⟨accepted, m₁, hwrite, hrest⟩ := Action.bind_eq_some.1 h
    obtain ⟨-, rfl⟩ := Action.write_eq_some.1 hwrite
    split at hrest
    · obtain ⟨hv, s, rfl⟩ := ih hrest
      exact ⟨hv, s, rfl⟩
    · obtain ⟨rfl, rfl⟩ := Action.pure_eq_some.1 hrest
      exact ⟨Or.inr rfl, _, rfl⟩

theorem Eval.ident_eq_some {scope : Scope} {y : String} {m m' : Machine} {v : Value}
    (h : ident scope y m = some (v, m')) :
    m = m' ∧ (m.store.get? scope y = some v ∨ (∃ b, v = .builtin b) ∨ ∃ e, v = .error e) := by
  obtain ⟨found, m₁, hfound, hrest⟩ := Action.bind_eq_some.1 h
  obtain ⟨hget, rfl⟩ := Action.lookup?_eq_some.1 hfound
  rw [hget]
  cases found with
  | some w =>
    obtain ⟨rfl, rfl⟩ := Action.pure_eq_some.1 hrest
    exact ⟨rfl, Or.inl rfl⟩
  | none =>
    dsimp only at hrest
    generalize Builtin.named? y = b? at hrest
    cases b? with
    | some b =>
      obtain ⟨rfl, rfl⟩ := Action.pure_eq_some.1 hrest
      exact ⟨rfl, Or.inr (Or.inl ⟨b, rfl⟩)⟩
    | none =>
      obtain ⟨rfl, rfl⟩ := Action.pure_eq_some.1 hrest
      exact ⟨rfl, Or.inr (Or.inr ⟨_, rfl⟩)⟩

namespace Ledger

variable {α β : Type} {L : Ledger}

theorem keeps_ident (scope : Scope) (y : String) :
    L.Keeps (Traced.step (Eval.ident scope y)) fun L₁ v => v.Known L₁ := by
  refine keeps_step fun L₁ m v m' _ hm h => ?_
  obtain ⟨rfl, hv⟩ := Eval.ident_eq_some h
  refine ⟨L₁, .refl L₁, rfl, hm, ?_⟩
  rcases hv with hv | ⟨b, rfl⟩ | ⟨e, rfl⟩
  · exact hm.get?_known hv
  · exact Value.every_builtin b
  · exact Value.every_error e

/-- A call of a builtin function makes one array at most, which is noted as what it leaves. -/
theorem keeps_builtin (b : Builtin) {args : List Value} (hargs : AllKnown L args) :
    L.Keeps (Traced.noting .left do
      Traced.note (.builtin b args)
      Traced.step (b.call args)) fun L₁ v => v.Known L₁ := by
  have hdoes := Builtin.does_call b hargs
  generalize b.call args = x at hdoes ⊢
  have hquiet (h : ∀ L₁ m v m', L.Within L₁ → m.Follows L₁ → x m = some (v, m') → m'.Follows L₁ ∧ v.Known L₁) :
      L.Keeps (Traced.noting .left do
        Traced.note (.builtin b args)
        Traced.step x) fun L₁ v => v.Known L₁ := by
    refine Keeps.noting ((keeps_note (.builtin b args) hargs).bind fun L₁ _ hL _ => keeps_step ?_) fun _ _ hv => hv
    intro L₂ m v m' hL₂ hm hx
    obtain ⟨hm', hv⟩ := h L₂ m v m' (hL.trans hL₂) hm hx
    exact ⟨L₂, .refl L₂, rfl, hm', hv⟩
  cases hdoes with
  | give hv =>
    refine hquiet fun L₁ m v m' hL hm h => ?_
    obtain ⟨rfl, rfl⟩ := Action.pure_eq_some.1 h
    exact ⟨hm, Value.Known.later hL hv⟩
  | @make vs hmakes hvs =>
    -- the ledger grows here, so this is no step that `keeps_step` speaks of
    intro L₁ m hL hm
    have hknown := (makes_newArray (AllKnown.later hL hvs)).known_make hm
    have hcalled : Accounts L₁ L₁ [.builtin b args] :=
      .quiet (.refl L₁) rfl fun event hevent => List.mem_singleton.1 hevent ▸ hargs.later hL
    exact .done (hcalled.make hm rfl (List.nil_append _).symm (.builtin hmakes) hknown) (hm.make _) hknown
  | write vs =>
    refine hquiet fun L₁ m v m' hL hm h => ?_
    obtain ⟨hv, s, rfl⟩ := Builtin.putAll_eq_some h
    refine ⟨hm.written s, ?_⟩
    rcases hv with rfl | rfl
    · exact Value.every_null
    · exact Value.every_error _

end Ledger

end Monkey
