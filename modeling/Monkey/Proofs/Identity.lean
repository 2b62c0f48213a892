import Monkey.Proofs.Accounting
import Monkey.Proofs.Handing

namespace Monkey

namespace Value

/-- When `==` holds of two values: they are the same number, both are null, the same boolean or the same builtin
function, whatever they are known by, or both are one of the objects that were made. -/
inductive Equal (objects : List Value) : Value → Value → Prop
  | integer (n : Int64) : Equal objects (.integer n) (.integer n)
  | null {ref ref' : Ref} : Equal objects (.nullAt ref) (.nullAt ref')
  | boolean {ref ref' : Ref} (b : Bool) : Equal objects (.booleanAt ref b) (.booleanAt ref' b)
  | builtin {ref ref' : Ref} (f : Builtin) : Equal objects (.builtinAt ref f) (.builtinAt ref' f)
  | object {k : Nat} {v : Value} : objects[k]? = some v → Equal objects v v

/-- What `==` looks at. -/
inductive Alike : Value → Value → Prop
  | integer (n : Int64) : Alike (.integer n) (.integer n)
  | object {a b : Value} {r : Ref} : a.ref? = some r → b.ref? = some r → Alike a b

theorem Alike.refl {v : Value} (hv : v.isSignal = false) (hstring : v.type ≠ .string) : v.Alike v := by
  cases v with
  | integer n => exact .integer n
  | string s => exact (hstring rfl).elim
  | error e | returned v => exact nomatch hv
  | _ => exact .object rfl rfl

theorem Alike.symm {a b : Value} (h : a.Alike b) : b.Alike a := by
  cases h with
  | integer n => exact .integer n
  | object ha hb => exact .object hb ha

theorem Alike.trans {a b c : Value} (h : a.Alike b) (h' : b.Alike c) : a.Alike c := by
  cases h with
  | integer n => exact h'
  | object ha hb =>
    cases h' with
    | integer n => exact nomatch hb
    | object hb' hc =>
      obtain rfl := Option.some.inj (hb.symm.trans hb')
      exact .object ha hc

theorem same_iff {a b : Value} : a.same b = true ↔ ∃ r, a.ref? = some r ∧ b.ref? = some r := by
  unfold same
  cases a.ref? with
  | none => simp
  | some r => cases b.ref? <;> simp [eq_comm]

theorem same_iff_alike {a b : Value} (hinteger : ¬ (a.type = .integer ∧ b.type = .integer)) :
    a.same b = true ↔ a.Alike b := by
  refine same_iff.trans ⟨fun ⟨r, ha, hb⟩ => .object ha hb, fun h => ?_⟩
  cases h with
  | integer n => exact (hinteger ⟨rfl, rfl⟩).elim
  | object ha hb => exact ⟨_, ha, hb⟩

theorem binary_of_other (op : Token) {a b : Value} (hinteger : ¬ (a.type = .integer ∧ b.type = .integer))
    (hstring : ¬ (a.type = .string ∧ b.type = .string)) : binary op a b = binaryObject op a b := by
  unfold binary
  split
  · exact (hinteger ⟨rfl, rfl⟩).elim
  · exact (hstring ⟨rfl, rfl⟩).elim
  · rfl

theorem eq_of_boolean_eq {b c : Bool} (h : boolean b = boolean c) : b = c := by
  cases h
  rfl

/-- Unless both values are strings, `==` and `!=` tell whether they are alike. -/
theorem binary_equality {a b : Value} (hstring : ¬ (a.type = .string ∧ b.type = .string)) :
    ∃ alike : Bool, (alike = true ↔ a.Alike b) ∧
      (∀ op : Token, op.kind = .equal → binary op a b = .boolean alike) ∧
      ∀ op : Token, op.kind = .notEqual → binary op a b = .boolean (!alike) := by
  by_cases hinteger : a.type = .integer ∧ b.type = .integer
  · cases a with
    | integer x =>
      cases b with
      | integer y =>
        refine ⟨x = y, ⟨fun h => of_decide_eq_true h ▸ .integer x, fun h => ?_⟩, ?_, ?_⟩
        · cases h with
          | integer n => exact decide_eq_true rfl
          | object ha hb => exact nomatch ha
        · intro op hop
          simp only [binary, binaryInteger, hop]
        · intro op hop
          simp only [binary, binaryInteger, hop, ne_eq, decide_not]
      | _ => exact nomatch hinteger.2
    | _ => exact nomatch hinteger.1
  · refine ⟨a.same b, same_iff_alike hinteger, fun op hop => ?_, fun op hop => ?_⟩
    · rw [binary_of_other op hinteger hstring, binaryObject, hop]
    · rw [binary_of_other op hinteger hstring, binaryObject, hop]

theorem binary_strings {a b : Value} (ha : a.type = .string) (hb : b.type = .string) {op : Token}
    (hop : op.kind = .equal ∨ op.kind = .notEqual) :
    binary op a b = .error (.noBinary .string op.text .string) := by
  cases a with
  | string s =>
    cases b with
    | string t =>
      have hplus : op.kind ≠ .plus := by rcases hop with hop | hop <;> rw [hop] <;> decide
      simp only [binary, binaryString, hplus, if_false]
    | _ => exact nomatch hb
  | _ => exact nomatch ha

/-- Among all values but signals and strings, whatever they are known by, `==` is an equivalence. -/
theorem binary_equivalence {op : Token} (hop : op.kind = .equal) :
    Equivalence fun a b : { v : Value // v.isSignal = false ∧ v.type ≠ .string } => binary op a b = .boolean true := by
  have halike (a b : { v : Value // v.isSignal = false ∧ v.type ≠ .string }) :
      binary op a b = .boolean true ↔ a.val.Alike b.val := by
    obtain ⟨alike, halike, hequal, -⟩ := binary_equality (fun h => a.2.2 h.1 : ¬ (_ ∧ b.val.type = _))
    rw [hequal op hop, ← halike]
    exact ⟨fun h => eq_of_boolean_eq h, congrArg _⟩
  constructor
  · exact fun a => (halike a a).2 (.refl a.2.1 a.2.2)
  · exact fun h => (halike _ _).2 ((halike _ _).1 h).symm
  · exact fun h h' => (halike _ _).2 (((halike _ _).1 h).trans ((halike _ _).1 h'))

theorem Every.self {p : Value → Prop} {v : Value} (h : v.Every p) {r : Ref} (hr : v.ref? = some r) : p v := by
  cases v with
  | nullAt ref => exact every_nullAt.1 h
  | booleanAt ref b => exact every_booleanAt.1 h
  | builtinAt ref f => exact every_builtinAt.1 h
  | array mark vs => exact (every_array.1 h).1
  | hash mark es => exact (every_hash.1 h).1
  | function mark c => exact every_function.1 h
  | _ => exact nomatch hr

/-- Objects that are there from the beginning or listed are told apart by what they are known by. -/
theorem IsOneOf.eq {objects : List Value} {v w : Value} (hv : v.IsOneOf objects) (hw : w.IsOneOf objects) {r : Ref}
    (hvr : v.ref? = some r) (hwr : w.ref? = some r) : v = w := by
  rcases hv with hv | ⟨k, hk, hv⟩
  · rcases hw with hw | ⟨l, hl, hw⟩
    -- no two of those from the beginning have one reference, and none has that of an object made later
    · cases hv <;> cases hw <;> cases hvr <;> cases hwr <;> rfl
    · cases (ref?_of_mark? hl).symm.trans hwr
      cases hv <;> exact nomatch hvr
  · cases (ref?_of_mark? hk).symm.trans hvr
    rcases hw with hw | ⟨l, hl, hw⟩
    · cases hw <;> exact nomatch hwr
    · cases (ref?_of_mark? hl).symm.trans hwr
      exact Option.some.inj (hv.symm.trans hw)

section known

variable {L : Ledger} {a b : Value} (ha : a.Known L) (hb : b.Known L)
include ha hb

/-- Among values that have been listed, alike are only those that are one. -/
theorem alike_iff (hplain : a.isSignal = false) (hstring : ¬ (a.type = .string ∧ b.type = .string)) :
    a.Alike b ↔ a = b := by
  constructor
  · intro h
    cases h with
    | integer n => rfl
    | object har hbr => exact (ha.self har).isOneOf.eq (hb.self hbr).isOneOf har hbr
  · rintro rfl
    exact .refl hplain fun h => hstring ⟨h, h⟩

theorem alike_iff_equal
    (hmark : ∀ (k : Nat) (object : Value), L.objects[k]? = some object → object.mark? = some k) :
    a.Alike b ↔ a.Equal L.objects b := by
  constructor
  · intro h
    cases h with
    | integer n => exact .integer n
    | object har hbr =>
      have hself := (ha.self har).isOneOf
      obtain rfl := hself.eq (hb.self hbr).isOneOf har hbr
      rcases hself with hshared | ⟨k, -, hlisted⟩
      · cases hshared with
        | null => exact .null
        | boolean b => exact .boolean b
        | builtin f => exact .builtin f
      · exact .object hlisted
  · intro h
    have hshared {v : Value} (hv : v.Known L) {r : Ref} (hr : v.ref? = some r) (hmark : v.mark? = none) :
        v.IsShared := by
      refine (hv.self hr).isOneOf.resolve_right fun ⟨k, hk, _⟩ => ?_
      rw [hmark] at hk
      exact nomatch hk
    cases h with
    | integer n => exact .integer n
    -- `Equal` leaves the references open, and those that a run knows are the shared ones
    | null | boolean b | builtin f =>
      have ha := hshared ha rfl rfl
      have hb := hshared hb rfl rfl
      cases ha
      cases hb
      exact .object rfl rfl
    | object h => exact .object (ref?_of_mark? (hmark _ _ h)) (ref?_of_mark? (hmark _ _ h))

end known

end Value

/-- All objects that are seen are as `p` says, and all that a machine binds that is seen. -/
def Event.Every (p : Value → Prop) : Event → Prop
  | reached m => ∀ f y v, (m.store.bindings f).get? y = some v → v.Every p
  | gave v | unary v | left v => v.Every p
  | binary a b | indexed a b => a.Every p ∧ b.Every p
  | called f args => f.Every p ∧ AllEvery p args
  | builtin _ args => AllEvery p args

theorem Event.Known.every {L : Ledger} {event : Event} (h : event.Known L) :
    event.Every (Value.IsOneOf L.objects) := by
  have hvalue {v : Value} (hv : v.Known L) : v.Every (Value.IsOneOf L.objects) := hv.mono fun _ ho => ho.isOneOf
  cases event with
  | reached m =>
    obtain ⟨L', hwithin, hm⟩ := h
    exact fun f y v hv => hvalue ((hm.known f y v hv).later hwithin)
  | gave v | unary v | left v => exact hvalue h
  | binary a b | indexed a b => exact h.imp hvalue hvalue
  | called f args => exact h.imp hvalue fun hargs a ha => hvalue (hargs a ha)
  | builtin b args => exact fun a ha => hvalue (h a ha)

/-- What is evaluated in a machine with a ledger is listed in a later one. -/
theorem Evaluates.keeps {scope : Scope} {e : Expr} {m m' : Machine} {seen : List Event} {v : Value} {L : Ledger}
    (h : Evaluates scope e m seen v m') (hm : m.Follows L) (hscope : scope.frame < L.frames) :
    ∃ L', L.Within L' ∧ m'.Follows L' ∧ v.Known L' := by
  obtain ⟨depth, hrun⟩ := h
  have hends := Ledger.keeps_eval depth L scope e hscope L m (.refl L) hm
  rw [hrun] at hends
  cases hends with
  | done haccounts hm' hv => exact ⟨_, haccounts.within, hm', hv⟩

/-- Of what two expressions evaluate to, one after the other, both operators tell whether it is one value. -/
theorem Evaluates.compares {scope : Scope} {left right : Expr} {m m₁ m₂ : Machine} {first second : List Event}
    {a b : Value} {L : Ledger} (hleft : Evaluates scope left m first a m₁) (hm : m.Follows L)
    (hscope : scope.frame < m.store.frames.size) (hright : Evaluates scope right m₁ second b m₂)
    (ha : a.isSignal = false) (hb : b.isSignal = false) (hstring : ¬ (a.type = .string ∧ b.type = .string)) :
    ∃ equal : Bool, (equal = true ↔ a = b) ∧
      (∀ op : Token, op.kind = .equal →
        ∃ depth, eval depth scope (.binary left op right) m = some (.boolean equal, m₂)) ∧
      ∀ op : Token, op.kind = .notEqual →
        ∃ depth, eval depth scope (.binary left op right) m = some (.boolean (!equal), m₂) := by
  rw [hm.size_eq] at hscope
  -- both values are listed after the second evaluation, and the objects in the first are so still
  obtain ⟨L₁, hL₁, hm₁, hknown⟩ := hleft.keeps hm hscope
  obtain ⟨L₂, hL₂, -, hknown'⟩ := hright.keeps hm₁ (Nat.lt_of_lt_of_le hscope hL₁.frames)
  obtain ⟨alike, halike, hequal, hnotEqual⟩ := Value.binary_equality hstring
  have hrun (op : Token) := exists_evaluates_iff.1 ⟨_, hleft.binary ha hright hb op⟩
  exact ⟨alike, halike.trans (Value.alike_iff (hknown.later hL₂) hknown' ha hstring),
    fun op hop => hequal op hop ▸ hrun op, fun op hop => hnotEqual op hop ▸ hrun op⟩

/-- An operation hands values on as they are, a name is bound to the very value, and so is a parameter. -/
structure HandsValuesOn : Prop where
  handsOn : ∀ {scope : Scope} {e : Expr} {m m' : Machine} {v : Value}, HandsOn scope e m v m' →
    ∃ depth, eval depth scope e m = some (v, m')
  bind : ∀ {scope : Scope} {e : Expr} {m m₁ : Machine} {seen : List Event} {v : Value} (name : Ident),
    Evaluates scope e m seen v m₁ → v.isSignal = false → scope.frame < m₁.store.frames.size →
    ∃ depth m', Eval.statement (eval depth) scope (.bind name e) m = some (v, m') ∧
      ∀ y, m'.store.get? scope y = if y = name.name then some v else m₁.store.get? scope y
  enter : ∀ {c : Closure} {args : List Value} {m m' : Machine} {seen : List Event} {inner : Scope},
    Enters c args m seen inner m' → c.scope.frame < m.store.frames.size →
    ∀ y, m'.store.get? inner y =
      (((c.params.map (·.name)).zip args).reverse.lookup y).or (m.store.get? c.scope y)

theorem handsValuesOn : HandsValuesOn where
  handsOn h := exists_evaluates_iff.1 h.evaluates
  bind name he hv hscope := by
    obtain ⟨seen', hperforms⟩ := he.performs_bind hv name
    obtain ⟨depth, hrun⟩ := hperforms.eval_eq
    exact ⟨depth, _, hrun, fun y => Store.get?_set hscope name.name y _⟩
  enter h hscope := h.get?_eq hscope

/-- In a session, all nulls, booleans and builtin functions that are seen or bound are those that are there from the
beginning, and all arrays, hashes and functions are objects that the session made, each of them once, by a literal, by
`rest` or by `push`. Operations hand these very values on. Two values that meet in `==` or `!=` are no signals. If both
are strings, this is an error. Else `==` tells whether they are the same number, both null, the same boolean, the same
builtin function, or one of the objects, which is whether they are one value, however they have come there; and `!=`
tells the opposite. So `==` is an equivalence of all values but strings. -/
theorem equality_is_identity (limit : Option Nat) (order : Arrangement) (depth : Nat) (inputs : List (List Stmt))
    (eq ne : Token) (heq : eq.kind = .equal ∧ eq.text = "==") (hne : ne.kind = .notEqual ∧ ne.text = "!=") :
    let run := Traced.session depth inputs (.new limit order)
    run.2 = session depth inputs (.new limit order) ∧
    (∃ objects : List Value,
      (∀ k object, objects[k]? = some object → MadeIn run.1 k object) ∧
      (∀ event ∈ run.1, event.Every (Value.IsOneOf objects)) ∧
      ∀ a b, .binary a b ∈ run.1 →
        (a.isSignal = false ∧ b.isSignal = false) ∧
        (a.type = .string ∧ b.type = .string →
          (∃ e, Value.binary eq a b = .error e ∧ e.message = "unknown operator: STRING == STRING") ∧
            ∃ e, Value.binary ne a b = .error e ∧ e.message = "unknown operator: STRING != STRING") ∧
        (¬ (a.type = .string ∧ b.type = .string) →
          ∃ equal : Bool, Value.binary eq a b = .boolean equal ∧ Value.binary ne a b = .boolean (!equal) ∧
            (equal = true ↔ a.Equal objects b) ∧ (equal = true ↔ a = b))) ∧
    HandsValuesOn ∧
    (∀ {m m₁ m₂ : Machine} {scope : Scope} {left right : Expr} {first second : List Event} {a b : Value},
      .reached m ∈ run.1 → scope.frame < m.store.frames.size → Evaluates scope left m first a m₁ →
      Evaluates scope right m₁ second b m₂ → a.isSignal = false → b.isSignal = false →
      ¬ (a.type = .string ∧ b.type = .string) →
      ∃ equal : Bool, (∃ depth', eval depth' scope (.binary left eq right) m = some (.boolean equal, m₂)) ∧
        (∃ depth', eval depth' scope (.binary left ne right) m = some (.boolean (!equal), m₂)) ∧
        (equal = true ↔ a = b)) ∧
    Equivalence fun a b : { v : Value // v.isSignal = false ∧ v.type ≠ .string } =>
      Value.binary eq a b = .boolean true := by
  intro run
  obtain ⟨L, haccounts⟩ := Ledger.session_accounts limit order depth inputs
  have hplain := (Traced.safe_session depth inputs (.new limit order) (Machine.plain_new limit order)).1
  have hmade (k : Nat) (object : Value) (h : L.objects[k]? = some object) : MadeIn run.1 k object :=
    haccounts.made k object (Nat.zero_le k) h
  have hsignal {v : Value} (hv : v.isPlain) : v.isSignal = false := by
    cases v <;> first | rfl | exact nomatch hv
  refine ⟨congrFun (Traced.action_session depth inputs) _, ⟨L.objects, hmade, fun event hevent =>
    (haccounts.known event hevent).every, fun a b hab => ?_⟩, handsValuesOn, ?_, ?_⟩
  · have hsignals := (hplain _ hab).imp hsignal hsignal
    refine ⟨hsignals, ?_, fun hstring => ?_⟩
    · rintro ⟨ha, hb⟩
      have hequal := Value.binary_strings ha hb (Or.inl heq.1)
      have hnotEqual := Value.binary_strings ha hb (Or.inr hne.1)
      refine ⟨⟨_, hequal, ?_⟩, _, hnotEqual, ?_⟩
      · rw [heq.2]
        rfl
      · rw [hne.2]
        rfl
    · obtain ⟨alike, halike, hequal, hnotEqual⟩ := Value.binary_equality hstring
      obtain ⟨ha, hb⟩ := haccounts.known _ hab
      have hmark (k : Nat) (object : Value) (h : L.objects[k]? = some object) := (hmade k object h).1
      exact ⟨alike, hequal eq heq.1, hnotEqual ne hne.1, halike.trans (Value.alike_iff_equal ha hb hmark),
        halike.trans (Value.alike_iff ha hb hsignals.1 hstring)⟩
  · intro m m₁ m₂ scope left right first second a b hm hscope hleft hright hplain₁ hplain₂ hstring
    obtain ⟨L₀, hfollows, -⟩ := Ledger.follows_of_reached hm
    obtain ⟨equal, hequal, hsame, hdiffers⟩ := hleft.compares hfollows hscope hright hplain₁ hplain₂ hstring
    exact ⟨equal, hsame eq heq.1, hdiffers ne hne.1, hequal⟩
  · exact Value.binary_equivalence heq.1

/-- In `let a = [[1]]; a == a; [] == a`, the first comparison is of one array with itself, and the second is of two that
are not one. Then `first(a) == first(a)` holds. -/
theorem equality_is_identity_of_arrays :
    let a : Ident := ⟨"a", .first, .first⟩
    let eq : Token := .synthetic .equal "=="
    let program : List Stmt := [.bind a (.array [.array [.int 1]]), .expr (.binary (.ident a) eq (.ident a)),
      .expr (.binary (.array []) eq (.ident a))]
    let seen := (Traced.session 3 [program] (.new none)).1
    let element : Value := .array 0 [.integer 1]
    let x : Value := .array 1 [element]
    let y : Value := .array 2 []
    let m : Machine := ⟨Store.empty.newGlobal.2.set ⟨0⟩ "a" x, 2, .unlimited, .sorted⟩
    let first : Expr := .call (.ident ⟨"first", .first, .first⟩) [.ident a]
    .binary x x ∈ seen ∧ .binary y x ∈ seen ∧ .reached m ∈ seen ∧
      (∃ objects, (∀ k object, objects[k]? = some object → MadeIn seen k object) ∧
        x.Equal objects x ∧ ¬ y.Equal objects x) ∧
      HandsOn ⟨0⟩ first m element m ∧
      ∃ depth, eval depth ⟨0⟩ (.binary first eq first) m = some (.boolean true, m) := by
  intro a eq program seen element x y m first
  have hxx : .binary x x ∈ seen := List.mem_of_getElem? (i := 12) (by with_unfolding_all rfl)
  have hyx : .binary y x ∈ seen := List.mem_of_getElem? (i := 18) (by with_unfolding_all rfl)
  have hm : .reached m ∈ seen := List.mem_of_getElem? (i := 6) (by with_unfolding_all rfl)
  have hidentity := equality_is_identity none .sorted 3 [program] eq (.synthetic .notEqual "!=") ⟨rfl, rfl⟩ ⟨rfl, rfl⟩
  obtain ⟨-, ⟨objects, hmade, -, hmet⟩, hhands, hcompare, -⟩ := hidentity
  obtain ⟨same, hsame, -, hequal, -⟩ := (hmet x x hxx).2.2 (by decide)
  obtain ⟨other, hother, -, hunequal, -⟩ := (hmet y x hyx).2.2 (by decide)
  obtain rfl : true = same := Value.eq_of_boolean_eq hsame
  obtain rfl : false = other := Value.eq_of_boolean_eq hother
  have hunbound : m.store.get? ⟨0⟩ "first" = none := by with_unfolding_all rfl
  have hcallee : Evaluates ⟨0⟩ (.ident ⟨"first", .first, .first⟩) m _ (.builtin .first) m :=
    evaluates_builtin hunbound (Builtin.named?_name .first)
  have harg : Evaluates ⟨0⟩ (.ident a) m _ x m := evaluates_bound (by with_unfolding_all rfl)
  have hfirst : HandsOn ⟨0⟩ first m element m := .picked hcallee (.cons harg rfl .nil) .first
  obtain ⟨_, hevaluates⟩ := hfirst.evaluates
  obtain ⟨equal, hrun, -, hone⟩ := hcompare hm (Nat.zero_lt_one) hevaluates hevaluates rfl rfl (by decide)
  exact ⟨hxx, hyx, hm, ⟨objects, hmade, hequal.1 rfl, fun h => nomatch hunequal.2 h⟩, hfirst, hone.2 rfl ▸ hrun⟩

end Monkey
