import Monkey.Proofs.Matching
import Monkey.Proofs.Showing

namespace Monkey

section machines

variable {names : String → Prop}

/-- The machines are the same as far as evaluation can tell: what stands for each other has been made in both,
frames that stand for each other bind what may be looked up to values that match and lie in such frames, and
the sinks take as much. -/
structure Machine.Matches (M : Matching names) (m m' : Machine) : Prop where
  frames_lt : ∀ {f f'}, M.frames f f' → f < m.store.frames.size ∧ f' < m'.store.frames.size
  marks_lt : ∀ {k k'}, M.marks k k' → k < m.marks ∧ k' < m'.marks
  bindings : ∀ {f f' name}, M.frames f f' → names name →
    Option.Rel (Value.Matches M) ((m.store.bindings f).get? name) ((m'.store.bindings f').get? name)
  outer : ∀ {f f'}, M.frames f f' → Option.Rel M.frames (m.store.outer? f) (m'.store.outer? f')
  left_eq : m.sink.left = m'.sink.left

theorem Machine.matches_empty (names : String → Prop) {m m' : Machine} (hleft : m.sink.left = m'.sink.left) :
    m.Matches (.empty names) m' where
  frames_lt := nofun
  marks_lt := nofun
  bindings := nofun
  outer := nofun
  left_eq := hleft

variable {M : Matching names} {m m' : Machine}

theorem rel_mono {α β : Type} {R S : α → β → Prop} {a : Option α} {b : Option β}
    (h : Option.Rel R a b) (hS : ∀ {a b}, R a b → S a b) : Option.Rel S a b := by
  cases h with
  | none => exact .none
  | some h => exact .some (hS h)

namespace Machine.Matches

theorem get? (h : m.Matches M m') {f f' : Nat} {name : String} (hf : M.frames f f')
    (hname : names name) :
    Option.Rel (Value.Matches M) (m.store.get? ⟨f⟩ name) (m'.store.get? ⟨f'⟩ name) := by
  rw [Store.get?_eq, Store.get?_eq]
  have hown := h.bindings hf hname
  generalize (m.store.bindings f).get? name = own at hown ⊢
  generalize (m'.store.bindings f').get? name = own' at hown ⊢
  cases hown with
  | some hv => exact .some hv
  | none =>
    have houter := h.outer hf
    have hlt : ∀ g, m.store.outer? f = some g → g < f := m.store.outer_lt f
    show Option.Rel _ ((m.store.outer? f).bind _) ((m'.store.outer? f').bind _)
    generalize m.store.outer? f = g at houter hlt ⊢
    generalize m'.store.outer? f' = g' at houter ⊢
    cases houter with
    | none => exact .none
    | some hg =>
      have := hlt _ rfl
      exact h.get? hg hname
termination_by f

theorem define (h : m.Matches M m') {f f' : Nat} {v v' : Value} (hf : M.frames f f')
    (hv : v.Matches M v') (name : String) :
    ({ m with store := m.store.set ⟨f⟩ name v } : Machine).Matches M
      { m' with store := m'.store.set ⟨f'⟩ name v' } := by
  constructor
  · intro g g' hg
    rw [Store.size_set, Store.size_set]
    exact h.frames_lt hg
  · exact h.marks_lt
  · intro g g' other hg hother
    rw [Store.bindings_set, Store.bindings_set]
    have hbindings := h.bindings hg hother
    obtain ⟨hlt, hlt'⟩ := h.frames_lt hg
    by_cases hsame : g = f
    · have hsame' : g' = f' := (M.frames_iff hg hf).1 hsame
      rw [if_pos ⟨hsame, hlt⟩, if_pos ⟨hsame', hlt'⟩, Bindings.get?_set, Bindings.get?_set]
      split
      · exact .some hv
      · exact hbindings
    · have hsame' : g' ≠ f' := fun hsame' => hsame ((M.frames_iff hg hf).2 hsame')
      rw [if_neg fun hand => hsame hand.1, if_neg fun hand => hsame' hand.1]
      exact hbindings
  · intro g g' hg
    rw [Store.outer?_set, Store.outer?_set]
    exact h.outer hg
  · exact h.left_eq

/-- A new frame in each run, in frames that stand for each other or with nothing around them. -/
theorem push (h : m.Matches M m') {outer outer' : Option Nat} (houter : Option.Rel M.frames outer outer')
    (hlt : ∀ f ∈ outer, f < m.store.frames.size) (hlt' : ∀ f ∈ outer', f < m'.store.frames.size) :
    ({ m with store := (m.store.push outer hlt).2 } : Machine).Matches
      (M.withFrame m.store.frames.size m'.store.frames.size h.frames_lt)
      { m' with store := (m'.store.push outer' hlt').2 } := by
  constructor
  · rintro g g' (hg | ⟨rfl, rfl⟩)
    · have := h.frames_lt hg
      rw [Store.size_push, Store.size_push]
      omega
    · rw [Store.size_push, Store.size_push]
      omega
  · exact h.marks_lt
  · rintro g g' name (hg | ⟨rfl, rfl⟩) hname
    · rw [Store.bindings_push, Store.bindings_push]
      exact rel_mono (h.bindings hg hname) fun hv => hv.later Matching.within_withFrame
    · rw [Store.bindings_push, Store.bindings_push, Store.bindings_size, Store.bindings_size]
      exact .none
  · rintro g g' (hg | ⟨rfl, rfl⟩)
    · obtain ⟨hlt, hlt'⟩ := h.frames_lt hg
      rw [Store.outer?_push, Store.outer?_push, if_neg (Nat.ne_of_lt hlt), if_neg (Nat.ne_of_lt hlt')]
      exact rel_mono (h.outer hg) .inl
    · rw [Store.outer?_push, Store.outer?_push, if_pos rfl, if_pos rfl]
      exact rel_mono houter .inl
  · exact h.left_eq

/-- A new mark in each run. -/
theorem mark (h : m.Matches M m') :
    ({ m with marks := m.marks + 1 } : Machine).Matches (M.withMark m.marks m'.marks h.marks_lt)
      { m' with marks := m'.marks + 1 } := by
  constructor
  · exact h.frames_lt
  · rintro k k' (hk | ⟨rfl, rfl⟩)
    · have := h.marks_lt hk
      dsimp only
      omega
    · exact ⟨Nat.lt_succ_self _, Nat.lt_succ_self _⟩
  · intro f f' name hf hname
    exact rel_mono (h.bindings hf hname) fun hv => hv.later Matching.within_withMark
  · exact h.outer
  · exact h.left_eq

theorem written (h : m.Matches M m') {s s' : Sink} (hleft : s.left = s'.left) :
    ({ m with sink := s } : Machine).Matches M { m' with sink := s' } :=
  ⟨h.frames_lt, h.marks_lt, h.bindings, h.outer, hleft⟩

end Machine.Matches

end machines

namespace Action

variable {names : String → Prop} {α α' β β' : Type}

/-- Two runs from machines that match: neither ends, or both do, with results that are related and machines
that match again. -/
inductive Ends (M : Matching names) (Q : Matching names → α → α' → Prop) :
    Option (α × Machine) → Option (α' × Machine) → Prop
  | neither : Ends M Q none none
  | both {N : Matching names} {a : α} {a' : α'} {n n' : Machine} :
    M.Within N → Q N a a' → n.Matches N n' → Ends M Q (some (a, n)) (some (a', n'))

/-- From machines that match both actions end or neither does, and so on. -/
def Matches (M : Matching names) (Q : Matching names → α → α' → Prop) (x : Action α) (y : Action α') :
    Prop :=
  ∀ N m m', M.Within N → m.Matches N m' → Ends N Q (x m) (y m')

variable {M : Matching names} {Q : Matching names → α → α' → Prop} {R : Matching names → β → β' → Prop}
  {x : Action α} {y : Action α'} {f : α → Action β} {g : α' → Action β'}

theorem Ends.before {N : Matching names} {r : Option (α × Machine)} {r' : Option (α' × Machine)} (h : Ends N Q r r')
    (hN : M.Within N) : Ends M Q r r' := by
  cases h with
  | neither => exact .neither
  | both hO hQ hn => exact .both (hN.trans hO) hQ hn

theorem matches_pure {a : α} {a' : α'} (h : ∀ N, M.Within N → Q N a a') :
    Matches M Q (pure a) (pure a') :=
  fun N _ _ hN hm => .both (.refl N) (h N hN) hm

theorem Matches.bind (hx : Matches M Q x y)
    (hf : ∀ N a a', M.Within N → Q N a a' → Matches N R (f a) (g a')) :
    Matches M R (x >>= f) (y >>= g) := by
  intro N m m' hN hm
  have hfirst := hx N m m' hN hm
  show Ends N R ((x m).bind fun p => f p.1 p.2) ((y m').bind fun p => g p.1 p.2)
  generalize x m = r at hfirst ⊢
  generalize y m' = r' at hfirst ⊢
  cases hfirst with
  | neither => exact .neither
  | both hO hQ hn =>
    exact (hf _ _ _ (hN.trans hO) hQ _ _ _ (.refl _) hn).before hO

theorem Matches.later {N : Matching names} (hx : Matches M Q x y) (hN : M.Within N) : Matches N Q x y :=
  fun O m m' hO hm => hx O m m' (hN.trans hO) hm

theorem matches_lookup? {scope scope' : Scope} {name : String}
    (hscope : M.frames scope.frame scope'.frame) (hname : names name) :
    Matches M (fun N => Option.Rel (Value.Matches N)) (lookup? scope name) (lookup? scope' name) := by
  intro N m m' hN hm
  exact .both (.refl N) (hm.get? (hN.frames hscope) hname) hm

theorem matches_define {scope scope' : Scope} {v v' : Value}
    (hscope : M.frames scope.frame scope'.frame) (name : String) (hv : v.Matches M v') :
    Matches M (fun _ _ _ => True) (define scope name v) (define scope' name v') := by
  intro N m m' hN hm
  exact .both (.refl N) trivial (hm.define (hN.frames hscope) (hv.later hN) name)

theorem matches_newGlobal :
    Matches M (fun N scope scope' => N.frames scope.frame scope'.frame) newGlobal newGlobal := by
  intro N m m' hN hm
  exact .both Matching.within_withFrame Matching.frames_withFrame (hm.push .none nofun nofun)

theorem matches_newChild {outer outer' : Scope} (houter : M.frames outer.frame outer'.frame) :
    Matches M (fun N scope scope' => N.frames scope.frame scope'.frame) (newChild outer)
      (newChild outer') := by
  intro N m m' hN hm
  obtain ⟨hlt, hlt'⟩ := hm.frames_lt (hN.frames houter)
  have hfilter {f n : Nat} (h : f < n) : (some f).filter (· < n) = some f := by
    simp only [Option.filter, h, decide_true, if_true]
  have hrel : Option.Rel N.frames ((some outer.frame).filter (· < m.store.frames.size))
      ((some outer'.frame).filter (· < m'.store.frames.size)) := by
    rw [hfilter hlt, hfilter hlt']
    exact .some (hN.frames houter)
  exact .both Matching.within_withFrame Matching.frames_withFrame (hm.push hrel (by simp) (by simp))

theorem matches_newMark : Matches M (fun N => N.marks) newMark newMark := by
  intro N m m' hN hm
  exact .both Matching.within_withMark Matching.marks_withMark hm.mark

theorem matches_writeLine {v v' : Value} (h : v.Matches M v') :
    Matches M (fun _ => Eq) (writeLine v) (writeLine v') := by
  intro N m m' hN hm
  obtain ⟨haccepted, hleft⟩ := Sink.write_of_left hm.left_eq (h.line_size m.order m'.order)
  exact .both (.refl N) haccepted (hm.written hleft)

theorem matches_newArray {vs vs' : List Value} (h : ValuesMatch M vs vs') :
    Matches M Value.Matches (newArray vs) (newArray vs') :=
  matches_newMark.bind fun _ _ _ hN hmark =>
    matches_pure fun _ hO => .array (hO.marks hmark) (h.later (hN.trans hO))

theorem matches_newHash {es es' : Entries} (h : EntriesMatch M es es') :
    Matches M Value.Matches (newHash es) (newHash es') :=
  matches_newMark.bind fun _ _ _ hN hmark =>
    matches_pure fun _ hO => .hash (hO.marks hmark) (h.later (hN.trans hO))

theorem matches_newFunction {c c' : Closure} (hparams : c.params.map (·.name) = c'.params.map (·.name))
    (hbody : StmtsMatch names c.body c'.body) (hscope : M.frames c.scope.frame c'.scope.frame) :
    Matches M Value.Matches (newFunction c) (newFunction c') :=
  matches_newMark.bind fun _ _ _ hN hmark =>
    matches_pure fun _ hO => .function (hO.marks hmark) hparams hbody (hO.frames (hN.frames hscope))

end Action

namespace Action

variable {names : String → Prop} {M : Matching names}

theorem matches_value {v v' : Value} (h : v.Matches M v') : Matches M Value.Matches (pure v) (pure v') :=
  matches_pure fun _ hN => h.later hN

end Action

namespace Builtin

variable {names : String → Prop} {M : Matching names}

theorem matches_withOne {args args' : List Value} {f f' : Value → Action Value}
    (h : ValuesMatch M args args')
    (hf : ∀ v v', v.Matches M v' → (f v).Matches M Value.Matches (f' v')) :
    (withOne args f).Matches M Value.Matches (withOne args' f') := by
  unfold withOne
  rw [h.length_eq]
  match h with
  | .nil => exact Action.matches_value (.error _)
  | .cons hv .nil => exact hf _ _ hv
  | .cons _ (.cons _ _) => exact Action.matches_value (.error _)

theorem matches_withArray (b : Builtin) {args args' : List Value} {f f' : List Value → Action Value}
    (h : ValuesMatch M args args')
    (hf : ∀ vs vs', ValuesMatch M vs vs' → (f vs).Matches M Value.Matches (f' vs')) :
    (withArray b args f).Matches M Value.Matches (withArray b args' f') := by
  refine matches_withOne h fun v v' hv => ?_
  cases hv with
  | array _ hvs => exact hf _ _ hvs
  | _ => exact Action.matches_value (.error _)

theorem matches_putAll {args args' : List Value} :
    ValuesMatch M args args' → (putAll args).Matches M Value.Matches (putAll args') := by
  intro hall
  induction args generalizing args' with
  | nil =>
    cases hall
    exact Action.matches_value .null
  | cons v args ih =>
    cases hall with
    | cons hv hargs =>
      unfold putAll
      refine (Action.matches_writeLine hv).bind fun N accepted accepted' hN h => ?_
      rw [h]
      split
      · exact (ih hargs).later hN
      · exact Action.matches_value (.error _)

theorem matches_call (b : Builtin) {args args' : List Value} (h : ValuesMatch M args args') :
    (b.call args).Matches M Value.Matches (b.call args') := by
  cases b with
  | len =>
    refine matches_withOne h fun v v' hv => ?_
    cases hv with
    | string s => exact Action.matches_value (.integer _)
    | array _ hvs =>
      dsimp only
      rw [hvs.length_eq]
      exact Action.matches_value (.integer _)
    | _ => exact Action.matches_value (.error _)
  | first =>
    refine matches_withArray _ h fun vs vs' hvs => Action.matches_value ?_
    rw [List.head?_eq_getElem?, List.head?_eq_getElem?]
    exact hvs.getElem? 0
  | last =>
    refine matches_withArray _ h fun vs vs' hvs => Action.matches_value ?_
    rw [List.getLast?_eq_getElem?, List.getLast?_eq_getElem?, hvs.length_eq]
    exact hvs.getElem? _
  | rest =>
    refine matches_withArray _ h fun vs vs' hvs => ?_
    cases hvs with
    | nil => exact Action.matches_value .null
    | cons _ hvs => exact Action.matches_newArray hvs
  | push =>
    unfold call
    dsimp only
    rw [h.length_eq]
    match h with
    | .nil => exact Action.matches_value (.error _)
    | .cons ha .nil | .cons ha (.cons _ (.cons _ _)) =>
      cases ha <;> exact Action.matches_value (.error _)
    | .cons ha (.cons hv .nil) =>
      cases ha with
      | array _ hvs => exact Action.matches_newArray (hvs.append (.cons hv .nil))
      | _ => exact Action.matches_value (.error _)
  | puts => exact matches_putAll h

end Builtin

namespace Event

variable {names : String → Prop}

/-- In matching calls of a builtin function the same is shown. -/
theorem shown_match {M : Matching names} (b : Builtin) {args args' : List Value} (h : ValuesMatch M args args') :
    ValuesMatch M (builtin b args).shown (builtin b args').shown := by
  cases b with
  | puts => exact h
  | _ => exact .nil

end Event

namespace Traced

variable {names : String → Prop} {α α' β β' : Type}

/-- The same of two runs with their events: the values that are shown in one match those that are in the other, even
if both are cut off. -/
inductive EndsAlike (M : Matching names) (Q : Matching names → α → α' → Prop) :
    List Event × Option (α × Machine) → List Event × Option (α' × Machine) → Prop
  | neither {N : Matching names} {seen seen' : List Event} :
    M.Within N → ValuesMatch N (shownIn seen) (shownIn seen') → EndsAlike M Q (seen, none) (seen', none)
  | both {N : Matching names} {a : α} {a' : α'} {n n' : Machine} {seen seen' : List Event} :
    M.Within N → Q N a a' → n.Matches N n' → ValuesMatch N (shownIn seen) (shownIn seen') →
    EndsAlike M Q (seen, some (a, n)) (seen', some (a', n'))

def Matches (M : Matching names) (Q : Matching names → α → α' → Prop) (x : Traced α) (y : Traced α') : Prop :=
  ∀ N m m', M.Within N → m.Matches N m' → EndsAlike N Q (x m) (y m')

variable {M : Matching names} {Q : Matching names → α → α' → Prop} {R : Matching names → β → β' → Prop}
  {x : Traced α} {y : Traced α'} {f : α → Traced β} {g : α' → Traced β'}

theorem EndsAlike.prepend {N : Matching names} {seen seen' : List Event} {r : List Event × Option (α × Machine)}
    {r' : List Event × Option (α' × Machine)} (h : EndsAlike N Q r r') (hN : M.Within N)
    (hshown : ValuesMatch N (shownIn seen) (shownIn seen')) :
    EndsAlike M Q (seen ++ r.1, r.2) (seen' ++ r'.1, r'.2) := by
  have hall {O : Matching names} {rest rest' : List Event} (hO : N.Within O)
      (hmore : ValuesMatch O (shownIn rest) (shownIn rest')) :
      ValuesMatch O (shownIn (seen ++ rest)) (shownIn (seen' ++ rest')) := by
    rw [shownIn_append, shownIn_append]
    exact (hshown.later hO).append hmore
  cases h with
  | neither hO hmore => exact .neither (hN.trans hO) (hall hO hmore)
  | both hO hQ hn hmore => exact .both (hN.trans hO) hQ hn (hall hO hmore)

theorem matches_pure {a : α} {a' : α'} (h : ∀ N, M.Within N → Q N a a') :
    Matches M Q (pure a) (pure a') :=
  fun N _ _ hN hm => .both (.refl N) (h N hN) hm .nil

theorem Matches.bind (hx : Matches M Q x y)
    (hf : ∀ N a a', M.Within N → Q N a a' → Matches N R (f a) (g a')) :
    Matches M R (x >>= f) (y >>= g) := by
  intro N m m' hN hm
  have hfirst := hx N m m' hN hm
  generalize hxm : x m = r, hym : y m' = r' at hfirst
  cases hfirst with
  | neither hO hshown =>
    rw [bind_of_none hxm, bind_of_none hym]
    exact .neither hO hshown
  | both hO hQ hn hshown =>
    rw [bind_of_some hxm, bind_of_some hym]
    exact (hf _ _ _ (hN.trans hO) hQ _ _ _ (.refl _) hn).prepend hO hshown

theorem matches_step {x : Action α} {y : Action α'} (h : x.Matches M Q y) :
    Matches M Q (Host.step x) (Host.step y) := by
  intro N m m' hN hm
  have hstep := h N m m' hN hm
  change EndsAlike N Q (step x m) (step y m')
  unfold step
  generalize x m = r, y m' = r' at hstep ⊢
  cases hstep with
  | neither => exact .neither (.refl N) .nil
  | both hO hQ hn => exact .both hO hQ hn .nil

theorem Matches.before (hx : Matches M Q x y) {event event' : Event} (h : ValuesMatch M event.shown event'.shown) :
    Matches M Q (Host.before event x) (Host.before event' y) := by
  intro N m m' hN hm
  have hshown : ValuesMatch N (shownIn [event]) (shownIn [event']) := by
    rw [shownIn_singleton, shownIn_singleton]
    exact h.later hN
  exact (hx N m m' hN hm).prepend (.refl N) hshown

/-- A result that is noted shows nothing. -/
theorem Matches.noting (hx : Matches M Q x y) {event : α → Event} {event' : α' → Event}
    (h : ∀ a, (event a).shown = []) (h' : ∀ a, (event' a).shown = []) :
    Matches M Q (Host.noting event x) (Host.noting event' y) := by
  intro N m m' hN hm
  have hfirst := hx N m m' hN hm
  change EndsAlike N Q (Traced.noting event x m) (Traced.noting event' y m')
  unfold Traced.noting
  generalize hxm : x m = r, hym : y m' = r' at hfirst
  cases hfirst with
  | neither hO hshown =>
    rw [bind_of_none hxm, bind_of_none hym]
    exact .neither hO hshown
  | @both O a a' n n' seen seen' hO hQ hn hshown =>
    rw [bind_of_some hxm, bind_of_some hym]
    refine .both hO hQ hn ?_
    change ValuesMatch O (shownIn (seen ++ [event a])) (shownIn (seen' ++ [event' a']))
    rwa [shownIn_append, shownIn_append, shownIn_singleton, shownIn_singleton, h, h', List.append_nil, List.append_nil]

/-- If one of the runs is known, so is the other. -/
theorem Matches.runs (h : Matches M Q x y) {m m' n : Machine} {a : α} (hm : m.Matches M m')
    (hx : x.action m = some (a, n)) :
    ∃ N a' n', y.action m' = some (a', n') ∧ M.Within N ∧ Q N a a' ∧ n.Matches N n' ∧
      ValuesMatch N (shownIn (x m).1) (shownIn (y m').1) := by
  have hends := h M m m' (.refl M) hm
  unfold action at hx ⊢
  generalize x m = r, y m' = r' at hends hx ⊢
  cases hends with
  | both hN hQ hn hshown =>
    cases hx
    exact ⟨_, _, _, rfl, hN, hQ, hn, hshown⟩
  | neither => exact nomatch hx

end Traced

namespace Guarded

variable {names : String → Prop} {α α' β β' : Type}

/-- Both evaluations go on, or both are left with signals that match. -/
inductive Result (Q : Matching names → α → α' → Prop) (M : Matching names) :
    Except Value α → Except Value α' → Prop
  | ok {a : α} {a' : α'} : Q M a a' → Result Q M (.ok a) (.ok a')
  | error {v v' : Value} : v.Matches M v' → Result Q M (.error v) (.error v')

def Matches (M : Matching names) (Q : Matching names → α → α' → Prop) (x : ExceptT Value Traced α)
    (y : ExceptT Value Traced α') : Prop :=
  Traced.Matches M (Result Q) x.run y.run

variable {M : Matching names} {Q : Matching names → α → α' → Prop} {R : Matching names → β → β' → Prop}

theorem matches_pure {a : α} {a' : α'} (h : ∀ N, M.Within N → Q N a a') :
    Matches M Q (pure a) (pure a') :=
  Traced.matches_pure fun N hN => .ok (h N hN)

theorem matches_throw {v v' : Value} (h : v.Matches M v') :
    Matches M Q (throw v : ExceptT Value Traced α) (throw v' : ExceptT Value Traced α') :=
  Traced.matches_pure fun _ hN => .error (h.later hN)

theorem Matches.bind {x : ExceptT Value Traced α} {y : ExceptT Value Traced α'}
    {f : α → ExceptT Value Traced β} {g : α' → ExceptT Value Traced β'}
    (hx : Matches M Q x y) (hf : ∀ N a a', M.Within N → Q N a a' → Matches N R (f a) (g a')) :
    Matches M R (x >>= f) (y >>= g) := by
  refine Traced.Matches.bind hx fun N r r' hN hr => ?_
  cases hr with
  | ok h => exact hf N _ _ hN h
  | error h => exact Traced.matches_pure fun _ hO => .error (h.later hO)

/-- An operation, which shows nothing, is noted before its result. -/
theorem matches_before {event event' : Event} (h : event.shown = []) (h' : event'.shown = []) {v v' : Value}
    (hv : v.Matches M v') :
    Matches M Value.Matches (before event (pure v : ExceptT Value Traced Value))
      (before event' (pure v' : ExceptT Value Traced Value)) := by
  have hpure : Matches M Value.Matches (pure v : ExceptT Value Traced Value) (pure v') :=
    matches_pure fun _ hN => hv.later hN
  refine Traced.Matches.before hpure ?_
  rw [h, h']
  exact .nil

theorem matches_lift {x : Traced α} {y : Traced α'} (hx : x.Matches M Q y)
    (hQ : ∀ {N O a a'}, N.Within O → Q N a a' → Q O a a') :
    Matches M Q (x : ExceptT Value Traced α) (y : ExceptT Value Traced α') :=
  Traced.Matches.bind hx fun _ _ _ _ h => Traced.matches_pure fun _ hO => .ok (hQ hO h)

theorem matches_liftValue {x y : Traced Value} (hx : x.Matches M Value.Matches y) :
    Matches M Value.Matches (x : ExceptT Value Traced Value) (y : ExceptT Value Traced Value) :=
  matches_lift hx fun hN h => h.later hN

theorem matches_plain {x y : Traced Value} (hx : x.Matches M Value.Matches y) :
    Matches M Value.Matches (plain x) (plain y) := by
  refine (matches_liftValue hx).bind fun N v v' _ hv => ?_
  rw [hv.isSignal_eq]
  split
  · exact matches_throw hv
  · exact matches_pure fun _ hO => hv.later hO

theorem Matches.result {x y : ExceptT Value Traced Value} (hx : Matches M Value.Matches x y) :
    Traced.Matches M Value.Matches (result x) (result y) := by
  refine Traced.Matches.bind hx fun N r r' _ hr => ?_
  cases hr with
  | ok h | error h => exact Traced.matches_pure fun _ hO => h.later hO

end Guarded

namespace Traced

theorem matches_value {names : String → Prop} {M : Matching names} {v v' : Value} (h : v.Matches M v') :
    Matches M Value.Matches (pure v) (pure v') :=
  matches_pure fun _ hN => h.later hN

end Traced

namespace Eval
open Guarded

variable {names : String → Prop} {M : Matching names} {ev : Scope → Expr → Traced Value}
  {scope scope' : Scope}

/-- The evaluation of the expressions inside is the same up to what matches. -/
def Simulates (names : String → Prop) (ev : Scope → Expr → Traced Value) : Prop :=
  ∀ (M : Matching names) (scope scope' : Scope) (e e' : Expr), M.frames scope.frame scope'.frame →
    e.Matches names e' → Traced.Matches M Value.Matches (ev scope e) (ev scope' e')

theorem Simulates.plain (hev : Simulates names ev) (hscope : M.frames scope.frame scope'.frame) {e e' : Expr}
    (he : e.Matches names e') :
    Guarded.Matches M Value.Matches (plain (ev scope e)) (plain (ev scope' e')) :=
  matches_plain (hev M scope scope' e e' hscope he)

variable (hev : Simulates names ev)
include hev

theorem matches_values {M : Matching names} (hscope : M.frames scope.frame scope'.frame)
    {es es' : List Expr} :
    AllMatch names es es' →
      Guarded.Matches M (fun N => ValuesMatch N) (values ev scope es) (values ev scope' es') := by
  intro hall
  induction es generalizing es' M with
  | nil =>
    cases hall
    exact matches_pure fun _ _ => .nil
  | cons e es ih =>
    cases hall with
    | cons he hes =>
      refine (hev.plain hscope he).bind fun N v v' hN hv => ?_
      refine (ih (hN.frames hscope) hes).bind fun O vs vs' hO hvs => ?_
      exact matches_pure fun _ hP => .cons (hv.later (hO.trans hP)) (hvs.later hP)

theorem matches_entries {M : Matching names} (hscope : M.frames scope.frame scope'.frame)
    {pairs pairs' : List (Expr × Expr)} {acc acc' : Entries} (hacc : EntriesMatch M acc acc') :
    PairsMatch names pairs pairs' →
      Guarded.Matches M (fun N => EntriesMatch N) (entries ev scope pairs acc)
        (entries ev scope' pairs' acc') := by
  intro hall
  induction pairs generalizing pairs' acc acc' M with
  | nil =>
    cases hall
    exact matches_pure fun _ hN => hacc.later hN
  | cons pair pairs ih =>
    cases hall with
    | cons hk he hpairs =>
      refine (hev.plain hscope hk).bind fun N key key' hN hkey => ?_
      rw [hkey.hashKey?_eq, hkey.type_eq]
      split
      · exact matches_throw (.error _)
      · refine (hev.plain (hN.frames hscope) he).bind fun O v v' hO hv => ?_
        have hlater := hN.trans hO
        exact ih (hlater.frames hscope) ((hacc.later hlater).insert (hkey.later hO) hv) hpairs

theorem matches_statement (hscope : M.frames scope.frame scope'.frame) {s s' : Stmt}
    (hs : s.Matches names s') :
    (statement ev scope s).Matches M Value.Matches (statement ev scope' s') := by
  cases hs with
  | bind hname he =>
    refine Traced.Matches.noting ?_ (fun _ => rfl) fun _ => rfl
    refine ((hev.plain hscope he).bind fun N v v' hN hv => ?_).result
    rw [hname]
    refine (matches_lift (Traced.matches_step (Action.matches_define (hN.frames hscope) _ hv)) fun _ h => h).bind ?_
    exact fun _ _ _ hO _ => matches_pure fun _ hP => hv.later (hO.trans hP)
  | give he =>
    refine Traced.Matches.noting ?_ (fun _ => rfl) fun _ => rfl
    exact ((hev.plain hscope he).bind fun _ _ _ _ hv =>
      matches_pure fun _ hN => .returned (hv.later hN)).result
  | expr he => exact hev M scope scope' _ _ hscope he

theorem matches_block {M : Matching names} (hscope : M.frames scope.frame scope'.frame)
    {stmts stmts' : List Stmt} {last last' : Value} (hlast : last.Matches M last') :
    StmtsMatch names stmts stmts' →
      (block ev scope stmts last).Matches M Value.Matches (block ev scope' stmts' last') := by
  intro hall
  induction stmts generalizing stmts' last last' M with
  | nil =>
    cases hall
    exact Traced.matches_value hlast
  | cons s stmts ih =>
    cases hall with
    | cons hs hstmts =>
      refine (matches_statement hev hscope hs).bind fun N v v' hN hv => ?_
      rw [hv.isSignal_eq]
      split
      · exact Traced.matches_value hv
      · exact ih (hN.frames hscope) hv hstmts

/-- A block whose result is unwrapped is a program or the body of a function. -/
theorem matches_unwrapped (hscope : M.frames scope.frame scope'.frame) {stmts stmts' : List Stmt}
    (hstmts : StmtsMatch names stmts stmts') :
    Traced.Matches M Value.Matches (do return (← block ev scope stmts .null).unwrapped)
      (do return (← block ev scope' stmts' .null).unwrapped) :=
  (matches_block hev hscope .null hstmts).bind fun _ _ _ _ hv => Traced.matches_value hv.unwrapped

theorem matches_program (hscope : M.frames scope.frame scope'.frame) {stmts stmts' : List Stmt}
    (hstmts : StmtsMatch names stmts stmts') :
    (program ev scope stmts).Matches M Value.Matches (program ev scope' stmts') :=
  (matches_unwrapped hev hscope hstmts).noting (fun _ => rfl) fun _ => rfl

omit hev in
theorem matches_bindAll {params params' : List Ident} {args args' : List Value} {M : Matching names}
    (hscope : M.frames scope.frame scope'.frame) (hparams : params.map (·.name) = params'.map (·.name)) :
    ValuesMatch M args args' →
      Traced.Matches M (fun _ _ _ => True) (bindAll scope params args) (bindAll scope' params' args') := by
  intro hargs
  induction params generalizing params' args args' M with
  | nil =>
    obtain rfl : params' = [] := List.map_eq_nil_iff.1 hparams.symm
    exact Traced.matches_pure fun _ _ => trivial
  | cons p ps ih =>
    cases params' with
    | nil => exact nomatch hparams
    | cons p' ps' =>
      obtain ⟨hp, hps⟩ := List.cons.inj hparams
      cases hargs with
      | nil => exact Traced.matches_pure fun _ _ => trivial
      | cons hv hargs =>
        dsimp only at hp
        unfold bindAll
        rw [hp]
        refine (Traced.matches_step (Action.matches_define hscope _ hv)).bind fun N _ _ hN _ => ?_
        exact ih (hN.frames hscope) hps (hargs.later hN)

theorem matches_apply {f f' : Value} (hf : f.Matches M f') {args args' : List Value}
    (hargs : ValuesMatch M args args') :
    (apply ev f args).Matches M Value.Matches (apply ev f' args') := by
  refine Traced.Matches.before (Traced.Matches.noting ?_ (fun _ => rfl) fun _ => rfl) .nil
  cases hf with
  | function _ hparams hbody hscope =>
    have hcount := congrArg List.length hparams
    rw [List.length_map, List.length_map] at hcount
    dsimp only
    rw [hargs.length_eq, hcount]
    split
    · exact Traced.matches_value (.error _)
    · refine (Traced.matches_step (Action.matches_newChild hscope)).bind fun N scope scope' hN hinner => ?_
      refine (matches_bindAll hinner hparams (hargs.later hN)).bind fun O _ _ hO _ => ?_
      exact matches_unwrapped hev (hO.frames hinner) hbody
  | builtinAt b _ => exact (Traced.matches_step (Builtin.matches_call b hargs)).before (Event.shown_match b hargs)
  | _ => exact Traced.matches_value (.error _)

omit hev in
theorem matches_ident (hscope : M.frames scope.frame scope'.frame) {name : String} (hname : names name) :
    (ident scope name).Matches M Value.Matches (ident scope' name) := by
  refine (Action.matches_lookup? hscope hname).bind fun N found found' _ hfound => ?_
  cases hfound with
  | some hv => exact Action.matches_value hv
  | none =>
    dsimp only
    split
    · exact Action.matches_value (.builtin _)
    · exact Action.matches_value (.error _)

theorem matches_expression (hscope : M.frames scope.frame scope'.frame) {e e' : Expr}
    (he : e.Matches names e') :
    (expression ev scope e).Matches M Value.Matches (expression ev scope' e') := by
  cases he with
  | @ident id id' hname hmem =>
    have hident := matches_ident (M := M) hscope hmem
    exact Traced.matches_step (hname ▸ hident)
  | int n => exact Traced.matches_value (.integer n)
  | string s => exact Traced.matches_value (.string s)
  | bool b => exact Traced.matches_value (.boolean b)
  | unary hop hright =>
    exact ((hev.plain hscope hright).bind fun _ _ _ _ hv => matches_before rfl rfl (hv.unary hop)).result
  | binary hleft hop hright =>
    refine ((hev.plain hscope hleft).bind fun N a a' hN ha => ?_).result
    refine (hev.plain (hN.frames hscope) hright).bind fun O b b' hO hb => ?_
    exact matches_before rfl rfl ((ha.later hO).binary hb hop)
  | cond htest hyes =>
    refine ((hev.plain hscope htest).bind fun N v v' hN hv => ?_).result
    rw [hv.truthy_eq]
    split
    · exact matches_liftValue (matches_block hev (hN.frames hscope) .null hyes)
    · exact matches_pure fun _ _ => .null
  | condElse htest hyes hno =>
    refine ((hev.plain hscope htest).bind fun N v v' hN hv => ?_).result
    rw [hv.truthy_eq]
    split
    · exact matches_liftValue (matches_block hev (hN.frames hscope) .null hyes)
    · exact matches_liftValue (matches_block hev (hN.frames hscope) .null hno)
  | function hparams hbody => exact Traced.matches_step (Action.matches_newFunction hparams hbody hscope)
  | call hcallee hargs =>
    refine ((hev.plain hscope hcallee).bind fun N f f' hN hf => ?_).result
    refine (matches_values hev (hN.frames hscope) hargs).bind fun O vs vs' hO hvs => ?_
    exact matches_liftValue (matches_apply hev (hf.later hO) hvs)
  | array helements =>
    refine ((matches_values hev hscope helements).bind fun N vs vs' hN hvs => ?_).result
    exact matches_liftValue (Traced.matches_step (Action.matches_newArray hvs))
  | index hleft hindex =>
    refine ((hev.plain hscope hleft).bind fun N a a' hN ha => ?_).result
    refine (hev.plain (hN.frames hscope) hindex).bind fun O b b' hO hb => ?_
    exact matches_before rfl rfl ((ha.later hO).indexed hb)
  | hash hpairs =>
    refine ((matches_entries hev hscope .nil hpairs).bind fun N es es' hN hes => ?_).result
    exact matches_liftValue (Traced.matches_step (Action.matches_newHash hes))

end Eval

/-- Evaluation is the same up to places, frames and marks, whatever the depth. -/
theorem simulates_eval (names : String → Prop) (depth : Nat) : Eval.Simulates names (Traced.eval depth) := by
  induction depth with
  | zero => exact fun _ _ _ _ _ _ _ N _ _ _ _ => .neither (.refl N) .nil
  | succ depth ih =>
    exact fun _ _ _ _ _ hscope he => (Eval.matches_expression ih hscope he).noting (fun _ => rfl) fun _ => rfl

end Monkey
