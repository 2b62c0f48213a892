import Mathlib.Data.String.Basic
import Monkey.Proofs.Evaluation

namespace Monkey

open Traced

theorem ValueType.name_injective {a b : ValueType} (h : a.name = b.name) : a = b := by
  cases a <;> cases b <;> first | rfl | exact absurd h (by decide)

namespace HashKey

variable {a b c : HashKey}

theorem before_iff :
    a.before b ↔ a.type.name < b.type.name ∨ a.type = b.type ∧ a.word < b.word := by
  simp only [before, Bool.or_eq_true, Bool.and_eq_true, decide_eq_true_iff]

theorem before_trans (hab : a.before b) (hbc : b.before c) : a.before c := by
  rw [before_iff] at hab hbc ⊢
  rcases hab with hab | ⟨hab, hword⟩
  · rcases hbc with hbc | ⟨hbc, -⟩
    · exact .inl (lt_trans hab hbc)
    · exact .inl (hbc ▸ hab)
  · rw [hab]
    exact hbc.imp id fun h => ⟨h.1, UInt64.lt_trans hword h.2⟩

theorem ne_of_before (h : a.before b) : a ≠ b := by
  rintro rfl
  rw [before_iff] at h
  exact h.elim (lt_irrefl _) fun h => UInt64.lt_irrefl _ h.2

theorem before_of_not_before (hne : a ≠ b) (h : ¬ a.before b) : b.before a := by
  rw [before_iff, not_or] at h
  rw [before_iff]
  rcases lt_or_eq_of_le (not_lt.1 h.1) with hlt | heq
  · exact .inl hlt
  · have htype := ValueType.name_injective heq.symm
    refine .inr ⟨htype.symm, ?_⟩
    have hword : ¬ a.word < b.word := fun hlt => h.2 ⟨htype, hlt⟩
    refine UInt64.lt_of_le_of_ne (UInt64.not_lt.1 hword) fun hsame => hne ?_
    cases a
    cases b
    cases htype
    cases hsame
    rfl

end HashKey

namespace Entries

variable {entries : Entries} {k : HashKey}

/-- The keys are in order, so each is there once. -/
def Sorted (entries : Entries) : Prop :=
  entries.Pairwise fun a b => a.1.before b.1

theorem Sorted.insert (h : Sorted entries) (k : HashKey) (key v : Value) : Sorted (insert k key v entries) := by
  induction entries with
  | nil => exact List.pairwise_singleton _ _
  | cons first entries ih =>
    obtain ⟨j, pair⟩ := first
    obtain ⟨hfirst, hentries⟩ := List.pairwise_cons.1 h
    rw [Entries.insert]
    split
    · next hk =>
      subst hk
      exact List.pairwise_cons.2 ⟨hfirst, hentries⟩
    next hne =>
    split
    · next hbefore =>
      refine List.pairwise_cons.2 ⟨List.forall_mem_cons.2 ⟨hbefore, fun entry hentry => ?_⟩, h⟩
      exact HashKey.before_trans hbefore (hfirst entry hentry)
    · next hbefore =>
      refine List.pairwise_cons.2 ⟨fun entry hentry => ?_, ih hentries⟩
      rcases mem_insert hentry with rfl | hentry
      · exact HashKey.before_of_not_before hne hbefore
      · exact hfirst entry hentry

theorem Sorted.nodup (h : Sorted entries) : (entries.map (·.1)).Nodup :=
  List.pairwise_map.2 (h.imp HashKey.ne_of_before)

theorem Sorted.mem_iff (h : Sorted entries) {pair : Value × Value} :
    (k, pair) ∈ entries ↔ List.lookup k entries = some pair := by
  induction entries with
  | nil => simp
  | cons first entries ih =>
    obtain ⟨j, other⟩ := first
    obtain ⟨hfirst, hentries⟩ := List.pairwise_cons.1 h
    rw [List.mem_cons, ih hentries, List.lookup_cons, Prod.mk.injEq]
    by_cases hk : k = j
    · subst hk
      have hnone : List.lookup k entries ≠ some pair := fun hlookup => by
        obtain ⟨before, after, rfl, -⟩ := List.lookup_eq_some_iff.1 hlookup
        exact HashKey.ne_of_before (hfirst (k, pair) (by simp)) rfl
      simp [hnone, eq_comm]
    · have hbeq : (k == j) = false := beq_false_of_ne hk
      simp [hk, hbeq]

end Entries

namespace Value

/-- Two values are one key of a hash: the same integer, the same boolean, or texts with the same fingerprint. -/
def sameKey : Value → Value → Bool
  | integer a, integer b => a = b
  | booleanAt _ a, booleanAt _ b => a = b
  | string a, string b => Text.fingerprint a = Text.fingerprint b
  | _, _ => false

theorem hashKey?_isSome_iff (v : Value) : v.hashKey?.isSome ↔ v.type ∈ [.integer, .boolean, .string] := by
  cases v <;> simp [hashKey?, type]

/-- Keys are told apart by nothing but their types and what they stand for. -/
theorem hashKey?_eq_iff {a : Value} (ha : a.hashKey?.isSome) (b : Value) :
    a.hashKey? = b.hashKey? ↔ a.sameKey b := by
  cases a with
  | integer m =>
    cases b with
    | integer n =>
      have hword : m.toUInt64 = n.toUInt64 ↔ m = n := ⟨congrArg Int64.ofUInt64, congrArg _⟩
      simp [hashKey?, HashKey.ofInteger, sameKey, hword]
    | _ => simp [hashKey?, HashKey.ofInteger, HashKey.ofBoolean, HashKey.ofString, sameKey]
  | booleanAt _ p =>
    cases b with
    | booleanAt _ q => cases p <;> cases q <;> simp [hashKey?, HashKey.ofBoolean, sameKey]
    | _ => simp [hashKey?, HashKey.ofInteger, HashKey.ofBoolean, HashKey.ofString, sameKey]
  | string s => cases b <;> simp [hashKey?, HashKey.ofInteger, HashKey.ofBoolean, HashKey.ofString, sameKey]
  | _ => exact absurd ha Bool.false_ne_true

end Value

/-- The last of the pairs whose key is this one. -/
def lastPair? (found : List (Value × Value)) (key : Value) : Option (Value × Value) :=
  found.reverse.find? fun pair => key.sameKey pair.1

namespace Entries

/-- What was added last is found first. -/
theorem lookup_addAll (acc : Entries) (found : List (Value × Value)) (k : HashKey) :
    List.lookup k (acc.addAll found) =
      (found.reverse.find? fun pair => pair.1.hashKey? = some k).or (List.lookup k acc) := by
  induction found generalizing acc with
  | nil => rfl
  | cons pair found ih =>
    obtain ⟨key, v⟩ := pair
    rw [addAll, ih, List.reverse_cons, List.find?_append, Option.or_assoc]
    apply congrArg
    cases hkey : key.hashKey? with
    | none => simp [hkey]
    | some j =>
      rw [Option.elim_some, lookup_insert, List.find?_singleton]
      by_cases hk : k = j
      · simp [hkey, hk]
      · simp [hkey, hk, Ne.symm hk]

theorem sorted_addAll {acc : Entries} (h : Sorted acc) (found : List (Value × Value)) :
    Sorted (acc.addAll found) := by
  induction found generalizing acc with
  | nil => exact h
  | cons pair found ih =>
    obtain ⟨key, v⟩ := pair
    rw [addAll]
    cases key.hashKey? with
    | none => exact ih h
    | some k => exact ih (h.insert k key v)

variable (found : List (Value × Value))

theorem lookup_addAll_nil {key : Value} {k : HashKey} (hk : key.hashKey? = some k) :
    List.lookup k (addAll [] found) = lastPair? found key := by
  rw [lookup_addAll, List.lookup_nil, Option.or_none, lastPair?]
  apply congrArg (List.find? · found.reverse)
  funext pair
  rw [Bool.eq_iff_iff, ← Value.hashKey?_eq_iff (by rw [hk]; rfl), hk, decide_eq_true_iff, eq_comm]

/-- There is one entry for each key, with the last pair that has it. -/
theorem mem_addAll_nil_iff {key v : Value} {k : HashKey} :
    (k, key, v) ∈ addAll [] found ↔ key.hashKey? = some k ∧ lastPair? found key = some (key, v) := by
  rw [(sorted_addAll List.Pairwise.nil found).mem_iff]
  constructor
  · intro hlookup
    have hkey : key.hashKey? = some k := by
      rw [lookup_addAll, List.lookup_nil, Option.or_none] at hlookup
      simpa using List.find?_some hlookup
    exact ⟨hkey, lookup_addAll_nil found hkey ▸ hlookup⟩
  · rintro ⟨hkey, hlast⟩
    rw [lookup_addAll_nil found hkey, hlast]

theorem indexed_addAll_nil (mark : Nat) {key : Value} (hkey : key.hashKey?.isSome) :
    (Value.hash mark (addAll [] found)).indexed key = ((lastPair? found key).map (·.2)).getD .null := by
  obtain ⟨k, hk⟩ := Option.isSome_iff_exists.1 hkey
  rw [Value.indexed, hk]
  dsimp only
  rw [get?, lookup_addAll_nil found hk]

end Entries

/-- The entries are those of a hash made of these pairs: of the pairs with one key it has the last. -/
structure KeepsLast (found : List (Value × Value)) (es : Entries) : Prop where
  indexed_eq : ∀ (mark : Nat) (key : Value), key.hashKey?.isSome →
    (Value.hash mark es).indexed key = ((lastPair? found key).map (·.2)).getD .null
  nodup : (es.map (·.1)).Nodup
  mem_iff : ∀ (k : HashKey) (key v : Value),
    (k, key, v) ∈ es ↔ key.hashKey? = some k ∧ lastPair? found key = some (key, v)

theorem keepsLast_addAll (found : List (Value × Value)) : KeepsLast found (Entries.addAll [] found) where
  indexed_eq mark _ hkey := Entries.indexed_addAll_nil found mark hkey
  nodup := (Entries.sorted_addAll List.Pairwise.nil found).nodup
  mem_iff _ _ _ := Entries.mem_addAll_nil_iff found

/-- The first pair that has to ends the making of a hash. No later one is evaluated. -/
def PairsStop (scope : Scope) (pairs : List (Expr × Expr)) (m : Machine) (seen : List Event) (g : Value)
    (m' : Machine) : Prop :=
  ∃ before k e after first found m₁ second, pairs = before ++ (k, e) :: after ∧ seen = first ++ second ∧
    PairsOf scope before m first found m₁ ∧ PairStops scope k e m₁ second g m'

section literals

variable {scope : Scope} {pairs : List (Expr × Expr)} {k e : Expr} {m m₁ m₂ m₃ : Machine}
  {first second seen : List Event} {key v g : Value}

theorem PairStops.pairsStop (h : PairStops scope k e m seen g m₁) (pairs : List (Expr × Expr)) :
    PairsStop scope ((k, e) :: pairs) m seen g m₁ :=
  ⟨[], k, e, pairs, [], [], m, seen, rfl, rfl, .nil, h⟩

theorem PairsStop.cons (hk : Evaluates scope k m first key m₁) (hkey : key.hashKey?.isSome)
    (he : Evaluates scope e m₁ second v m₂) (hv : v.isSignal = false) (h : PairsStop scope pairs m₂ seen g m₃) :
    PairsStop scope ((k, e) :: pairs) m (first ++ (second ++ seen)) g m₃ := by
  obtain ⟨before, k', e', after, first', found, m₄, second', rfl, rfl, hfound, hstop⟩ := h
  refine ⟨(k, e) :: before, k', e', after, _, _, m₄, second', rfl, ?_, hfound.cons hk hkey he hv, hstop⟩
  simp only [List.append_assoc]

theorem PairsStop.evaluates (h : PairsStop scope pairs m seen g m₁) :
    Evaluates scope (.hash pairs) m (seen ++ [.gave g]) g m₁ := by
  obtain ⟨before, k, e, after, first, found, m', second, rfl, rfl, hfound, hstop⟩ := h
  exact Evaluates.of_expression (hfound.stops after hstop).run_bind_error.result_error

/-- There is no other way for pairs to have a result. -/
theorem pairs_of_entries {depth : Nat} {acc : Entries} {out : Except Value Entries}
    (h : (Eval.entries (Traced.eval depth) scope pairs acc).run m = (seen, some (out, m₂))) :
    (∃ found, PairsOf scope pairs m seen found m₂) ∨ ∃ g, out = .error g ∧ PairsStop scope pairs m seen g m₂ := by
  induction pairs generalizing m seen acc with
  | nil =>
    cases h
    exact .inl ⟨[], .nil⟩
  | cons pair pairs ih =>
    obtain ⟨k, e⟩ := pair
    -- A pair may stop at its key, before its value or at its value: these are the three ways of `PairStops`.
    rcases run_bind_eq_some h with ⟨first, key, m₁, rest, hkey, hrest, rfl⟩ | ⟨g, hkey, rfl⟩
    · obtain ⟨hk, hplain⟩ := of_run_plain_ok hkey
      cases hhash : key.hashKey? with
      | none =>
        rw [hhash] at hrest
        cases hrest
        rw [List.append_nil]
        exact .inr ⟨_, rfl, (PairStops.unusable ⟨depth, hk⟩ hplain hhash).pairsStop pairs⟩
      | some hashKey =>
        rw [hhash] at hrest
        have husable : key.hashKey?.isSome := Option.isSome_of_eq_some hhash
        rcases run_bind_eq_some hrest with ⟨second, v, m₃, rest, hvalue, hmore, rfl⟩ | ⟨g, hvalue, rfl⟩
        · obtain ⟨he, hplain'⟩ := of_run_plain_ok hvalue
          rcases ih hmore with ⟨found, hfound⟩ | ⟨g, hout, hstop⟩
          · exact .inl ⟨_, hfound.cons ⟨depth, hk⟩ husable ⟨depth, he⟩ hplain'⟩
          · exact .inr ⟨g, hout, hstop.cons ⟨depth, hk⟩ husable ⟨depth, he⟩ hplain'⟩
        · obtain ⟨he, hsignal⟩ := of_run_plain_error hvalue
          exact .inr ⟨g, rfl, (PairStops.value ⟨depth, hk⟩ husable ⟨depth, he⟩ hsignal).pairsStop pairs⟩
    · obtain ⟨hk, hsignal⟩ := of_run_plain_error hkey
      exact .inr ⟨g, rfl, (PairStops.key ⟨depth, hk⟩ hsignal).pairsStop pairs⟩

theorem pairs_of_evaluates {history : List Event} (h : Evaluates scope (.hash pairs) m history v m₂) :
    (∃ seen found m₁, PairsOf scope pairs m seen found m₁) ∨ ∃ seen, PairsStop scope pairs m seen v m₂ := by
  obtain ⟨_ | depth, h⟩ := h
  · cases h
  obtain ⟨_, w, m₁, _, hresult, hnote, -⟩ := bind_eq_some.1 h
  cases hnote
  obtain ⟨seen, out, m', _, hrun, hout, -⟩ := bind_eq_some.1 hresult
  rcases run_bind_eq_some hrun with ⟨first, es, m₃, _, hentries, -, -⟩ | ⟨g, hentries, rfl⟩
  · refine .inl ?_
    rcases pairs_of_entries hentries with ⟨found, hfound⟩ | ⟨g, hout, -⟩
    · exact ⟨first, found, m₃, hfound⟩
    · cases hout
  · cases hout
    rcases pairs_of_entries hentries with ⟨found, hfound⟩ | ⟨g', hout, hstop⟩
    · exact .inl ⟨_, found, _, hfound⟩
    · cases hout
      exact .inr ⟨_, hstop⟩

/-- Whatever the evaluator gives is a hash of all pairs, or what the pairs stopped with. -/
theorem hash_or_stop_of_eval {depth : Nat} (h : eval depth scope (.hash pairs) m = some (v, m₂)) :
    (∃ seen found m₁ es, PairsOf scope pairs m seen found m₁ ∧ KeepsLast found es ∧ v = .hash m₁.marks es) ∨
      ∃ seen, PairsStop scope pairs m seen v m₂ := by
  obtain ⟨history, hevaluates⟩ := exists_evaluates_iff.2 ⟨depth, h⟩
  refine (pairs_of_evaluates hevaluates).imp_left ?_
  rintro ⟨seen, found, m₁, hfound⟩
  exact ⟨seen, found, m₁, _, hfound, keepsLast_addAll found, congrArg Prod.fst (hfound.evaluates.eval_eq h)⟩

end literals

/-- A hash literal is made from left to right, and of the pairs with one key the last is kept. It stops at the first
pair with a signal, or with a key that cannot be one, which is found before the value of that key. Keys are the
integers, the booleans and the texts. Two of them are one only if they have one type and are the same integer, the same
boolean or texts with the same fingerprint. -/
theorem hash_literal_keeps_last (scope : Scope) (pairs : List (Expr × Expr)) (m : Machine) :
    (∀ {seen : List Event} {found : List (Value × Value)} {m₁ : Machine}, PairsOf scope pairs m seen found m₁ →
      ∃ es, KeepsLast found es ∧
        let made : Value := .hash m₁.marks es
        let m₂ := { m₁ with marks := m₁.marks + 1 }
        Evaluates scope (.hash pairs) m (seen ++ [.reached m₂] ++ [.gave made]) made m₂) ∧
    (∀ {seen : List Event} {g : Value} {m₁ : Machine}, PairsStop scope pairs m seen g m₁ →
      Evaluates scope (.hash pairs) m (seen ++ [.gave g]) g m₁) ∧
    (∀ {depth : Nat} {v : Value} {m₂ : Machine}, eval depth scope (.hash pairs) m = some (v, m₂) →
      (∃ seen found m₁ es, PairsOf scope pairs m seen found m₁ ∧ KeepsLast found es ∧ v = .hash m₁.marks es) ∨
        ∃ seen, PairsStop scope pairs m seen v m₂) ∧
    (∀ v : Value, v.hashKey?.isSome ↔ v.type ∈ [.integer, .boolean, .string]) ∧
    (∀ a b : Value, a.hashKey?.isSome → (a.hashKey? = b.hashKey? ↔ a.sameKey b)) ∧
    ∀ type : ValueType, (RuntimeError.notHashable type).message = "unusable as hash key: " ++ type.name :=
  ⟨fun h => ⟨_, keepsLast_addAll _, h.evaluates⟩, PairsStop.evaluates, hash_or_stop_of_eval, Value.hashKey?_isSome_iff,
    fun _ b ha => Value.hashKey?_eq_iff ha b, fun _ => rfl⟩

/-- The integer 1 comes twice, and is not the key `true`. A builtin function as a key stops the second literal. -/
theorem hash_literal_keeps_last_of_repeated :
    let m := Machine.new none
    let pairs : List (Expr × Expr) := [(.int 1, .int 10), (.bool true, .int 3), (.int 1, .int 20)]
    let len : Expr := .ident ⟨"len", .first, .first⟩
    let bad : List (Expr × Expr) := [(.int 1, .int 10), (len, .int 3), (.int 1, .int 20)]
    let first : List Event := [.gave (.integer 1), .gave (.integer 10)]
    let g : Value := .error (.notHashable .builtin)
    (∃ es seen, Evaluates ⟨0⟩ (.hash pairs) m seen (.hash 0 es) { m with marks := 1 } ∧
      (Value.hash 0 es).indexed (.integer 1) = .integer 20 ∧
      (Value.hash 0 es).indexed (.boolean true) = .integer 3 ∧ (Value.hash 0 es).indexed (.string "1") = .null) ∧
    PairsStop ⟨0⟩ bad m (first ++ [.reached m, .gave (.builtin .len)]) g m ∧
    Evaluates ⟨0⟩ (.hash bad) m (first ++ [.reached m, .gave (.builtin .len)] ++ [.gave g]) g m := by
  intro m pairs len bad first g
  have hint (n : Int64) : Evaluates ⟨0⟩ (.int n) m [.gave (.integer n)] (.integer n) m := ⟨1, rfl⟩
  have htrue : Evaluates ⟨0⟩ (.bool true) m [.gave (.boolean true)] (.boolean true) m := ⟨1, rfl⟩
  have hlen : Evaluates ⟨0⟩ len m [.reached m, .gave (.builtin .len)] (.builtin .len) m :=
    ⟨1, by with_unfolding_all rfl⟩
  have hpairs : PairsOf ⟨0⟩ pairs m _ _ m :=
    .cons (hint 1) rfl (hint 10) rfl (.cons htrue rfl (hint 3) rfl (.cons (hint 1) rfl (hint 20) rfl .nil))
  have hstop : PairsStop ⟨0⟩ bad m (first ++ [.reached m, .gave (.builtin .len)]) g m :=
    ⟨[(.int 1, .int 10)], len, .int 3, [(.int 1, .int 20)], first, _, m, _, rfl, rfl,
      .cons (hint 1) rfl (hint 10) rfl .nil, .unusable hlen rfl rfl⟩
  obtain ⟨es, hkeeps, hevaluates⟩ := (hash_literal_keeps_last ⟨0⟩ pairs m).1 hpairs
  refine ⟨⟨es, _, hevaluates, ?_, ?_, ?_⟩, hstop, (hash_literal_keeps_last ⟨0⟩ bad m).2.1 hstop⟩
  · exact hkeeps.indexed_eq 0 (.integer 1) rfl
  · exact hkeeps.indexed_eq 0 (.boolean true) rfl
  · exact hkeeps.indexed_eq 0 (.string "1") rfl

end Monkey
