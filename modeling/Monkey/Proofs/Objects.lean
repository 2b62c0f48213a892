import Monkey.Eval

namespace Monkey

/-- The objects that are there from the beginning: the one null, the two booleans and the builtin functions. -/
inductive Value.IsShared : Value → Prop
  | null : IsShared .null
  | boolean (b : Bool) : IsShared (.boolean b)
  | builtin (f : Builtin) : IsShared (.builtin f)

/-- What holds of all objects that are there from the beginning. -/
class OfShared (p : Value → Prop) : Prop where
  holds : ∀ v, v.IsShared → p v

/-- The second value is an object, which is neither a number nor a text, and it is the first value or in it at any
depth. -/
inductive Value.Has : Value → Value → Prop
  | nullAt {ref : Ref} : Has (.nullAt ref) (.nullAt ref)
  | booleanAt {ref : Ref} {b : Bool} : Has (.booleanAt ref b) (.booleanAt ref b)
  | builtinAt {ref : Ref} {f : Builtin} : Has (.builtinAt ref f) (.builtinAt ref f)
  | array {mark : Nat} {vs : List Value} : Has (.array mark vs) (.array mark vs)
  | hash {mark : Nat} {es : Entries} : Has (.hash mark es) (.hash mark es)
  | function {mark : Nat} {c : Closure} : Has (.function mark c) (.function mark c)
  | element {mark : Nat} {vs : List Value} {v w : Value} :
    v ∈ vs → Has v w → Has (.array mark vs) w
  | key {mark : Nat} {es : Entries} {k : HashKey} {key v w : Value} :
    (k, key, v) ∈ es → Has key w → Has (.hash mark es) w
  | value {mark : Nat} {es : Entries} {k : HashKey} {key v w : Value} :
    (k, key, v) ∈ es → Has v w → Has (.hash mark es) w
  | returned {v w : Value} : Has v w → Has (.returned v) w

section every

variable (p : Value → Prop)

/-- All objects in the value, at any depth, are as `p` says. -/
def Value.Every (v : Value) : Prop :=
  ∀ w, v.Has w → p w

def AllEvery (vs : List Value) : Prop :=
  ∀ v ∈ vs, v.Every p

def EntriesEvery (es : Entries) : Prop :=
  ∀ k key v, (k, key, v) ∈ es → key.Every p ∧ v.Every p

end every

variable {p : Value → Prop}

@[simp] theorem allEvery_nil : AllEvery p [] :=
  fun _ h => nomatch h

@[simp] theorem allEvery_cons {v : Value} {vs : List Value} :
    AllEvery p (v :: vs) ↔ v.Every p ∧ AllEvery p vs :=
  List.forall_mem_cons

theorem AllEvery.append {vs ws : List Value} (hvs : AllEvery p vs) (hws : AllEvery p ws) :
    AllEvery p (vs ++ ws) :=
  List.forall_mem_append.2 ⟨hvs, hws⟩

namespace Value

@[simp] theorem every_integer (n : Int64) : (integer n).Every p :=
  fun _ h => nomatch h

@[simp] theorem every_booleanAt {ref : Ref} {b : Bool} : (booleanAt ref b).Every p ↔ p (booleanAt ref b) := by
  refine ⟨fun h => h _ .booleanAt, fun h w hw => ?_⟩
  cases hw with
  | booleanAt => exact h

@[simp] theorem every_string (s : String) : (string s).Every p :=
  fun _ h => nomatch h

@[simp] theorem every_nullAt {ref : Ref} : (nullAt ref).Every p ↔ p (nullAt ref) := by
  refine ⟨fun h => h _ .nullAt, fun h w hw => ?_⟩
  cases hw with
  | nullAt => exact h

@[simp] theorem every_builtinAt {ref : Ref} {f : Builtin} : (builtinAt ref f).Every p ↔ p (builtinAt ref f) := by
  refine ⟨fun h => h _ .builtinAt, fun h w hw => ?_⟩
  cases hw with
  | builtinAt => exact h

@[simp] theorem every_error (e : RuntimeError) : (error e).Every p :=
  fun _ h => nomatch h

@[simp] theorem every_array {mark : Nat} {vs : List Value} :
    (array mark vs).Every p ↔ p (array mark vs) ∧ AllEvery p vs := by
  refine ⟨fun h => ⟨h _ .array, fun v hv w hw => h w (.element hv hw)⟩, fun ⟨hself, hvs⟩ w hw => ?_⟩
  cases hw with
  | array => exact hself
  | element hv hw => exact hvs _ hv w hw

@[simp] theorem every_hash {mark : Nat} {es : Entries} :
    (hash mark es).Every p ↔ p (hash mark es) ∧ EntriesEvery p es := by
  constructor
  · exact fun h => ⟨h _ .hash, fun k key v he =>
      ⟨fun w hw => h w (.key he hw), fun w hw => h w (.value he hw)⟩⟩
  · rintro ⟨hself, hes⟩ w hw
    cases hw with
    | hash => exact hself
    | key he hw => exact (hes _ _ _ he).1 w hw
    | value he hw => exact (hes _ _ _ he).2 w hw

@[simp] theorem every_function {mark : Nat} {c : Closure} :
    (function mark c).Every p ↔ p (function mark c) := by
  refine ⟨fun h => h _ .function, fun h w hw => ?_⟩
  cases hw with
  | function => exact h

@[simp] theorem every_returned {v : Value} : (returned v).Every p ↔ v.Every p := by
  refine ⟨fun h w hw => h w (.returned hw), fun h w hw => ?_⟩
  cases hw with
  | returned hw => exact h w hw

theorem Every.mono {v : Value} {q : Value → Prop} (h : v.Every p) (hpq : ∀ w, p w → q w) : v.Every q :=
  fun w hw => hpq w (h w hw)

theorem Every.unwrapped {v : Value} (h : v.Every p) : v.unwrapped.Every p := by
  cases v with
  | returned v => exact every_returned.1 h
  | _ => exact h

section shared

variable [OfShared p]

theorem every_null : null.Every p :=
  every_nullAt.2 (OfShared.holds _ .null)

theorem every_boolean (b : Bool) : (boolean b).Every p :=
  every_booleanAt.2 (OfShared.holds _ (.boolean b))

theorem every_builtin (f : Builtin) : (builtin f).Every p :=
  every_builtinAt.2 (OfShared.holds _ (.builtin f))

theorem every_unary (op : Token) (v : Value) : (v.unary op).Every p := by
  unfold unary
  split
  · exact every_boolean _
  · split
    · exact every_integer _
    · exact every_error _
  · exact every_error _

theorem every_binary (op : Token) (a b : Value) : (binary op a b).Every p := by
  unfold binary
  split
  · unfold binaryInteger
    split <;>
      first
        | exact every_integer _
        | exact every_boolean _
        | exact every_error _
        | (split <;> simp)
  · unfold binaryString
    split
    · exact every_string _
    · exact every_error _
  · unfold binaryObject
    split
    · exact every_boolean _
    · exact every_boolean _
    · split <;> exact every_error _

end shared

end Value

namespace EntriesEvery

theorem nil : EntriesEvery p [] :=
  fun _ _ _ h => nomatch h

theorem insert {es : Entries} {k : HashKey} {key v : Value} (hes : EntriesEvery p es) (hkey : key.Every p)
    (hv : v.Every p) : EntriesEvery p (es.insert k key v) := by
  intro k' key' v' h
  rcases Entries.mem_insert h with ⟨rfl, rfl, rfl⟩ | h
  · exact ⟨hkey, hv⟩
  · exact hes k' key' v' h

theorem get? [OfShared p] {es : Entries} (hes : EntriesEvery p es) (k : HashKey) :
    ((es.get? k).getD .null).Every p := by
  unfold Entries.get?
  cases hget : List.lookup k es with
  | none => exact Value.every_null
  | some pair =>
    obtain ⟨before, after, rfl, -⟩ := List.lookup_eq_some_iff.1 hget
    exact (hes k pair.1 pair.2 (by simp)).2

end EntriesEvery

/-- Looking up in a value gives nothing but what is in it. -/
theorem Value.Every.indexed [OfShared p] {a : Value} (ha : a.Every p) (b : Value) : (a.indexed b).Every p := by
  unfold Value.indexed
  split
  · next elements n =>
    have helements := (every_array.1 ha).2
    unfold elementAt
    split
    · exact every_null
    · cases hget : elements[n.toNatClampNeg]? with
      | none => exact every_null
      | some v => exact helements v (List.mem_of_getElem? hget)
  · split
    · exact (every_hash.1 ha).2.get? _
    · exact every_error _
  · exact every_error _

namespace Builtin

/-- The function makes an array of these values, which are those of the array that it is given. -/
inductive Makes : Builtin → List Value → List Value → Prop
  | rest {mark : Nat} {v : Value} {vs : List Value} : Makes .rest [.array mark (v :: vs)] vs
  | push {mark : Nat} {vs : List Value} {v : Value} : Makes .push [.array mark vs, v] (vs ++ [v])

/-- What a call of a builtin function comes to: it gives a value with nothing in it that is not as `p` says,
it makes an array of such values, or it writes. -/
inductive Does (p : Value → Prop) (b : Builtin) (args : List Value) : Action Value → Prop
  | give {v : Value} : v.Every p → Does p b args (pure v)
  | make {vs : List Value} : b.Makes args vs → AllEvery p vs → Does p b args (Action.newArray vs)
  | write (vs : List Value) : Does p b args (putAll vs)

theorem does_withOne {b : Builtin} {args : List Value} {f : Value → Action Value} (h : AllEvery p args)
    (hf : ∀ v, args = [v] → v.Every p → Does p b args (f v)) : Does p b args (withOne args f) := by
  unfold withOne
  split
  · exact hf _ rfl (allEvery_cons.1 h).1
  · exact .give (Value.every_error _)

theorem does_withArray {b : Builtin} {args : List Value} {f : List Value → Action Value} (h : AllEvery p args)
    (hf : ∀ mark vs, args = [.array mark vs] → AllEvery p vs → Does p b args (f vs)) :
    Does p b args (withArray b args f) := by
  refine does_withOne h fun v hargs hv => ?_
  split
  · exact hf _ _ hargs (Value.every_array.1 hv).2
  · exact .give (Value.every_error _)

/-- All that a builtin function gives or puts into an array was in its arguments. -/
theorem does_call [OfShared p] (b : Builtin) {args : List Value} (h : AllEvery p args) :
    Does p b args (b.call args) := by
  have hoption {v? : Option Value} {vs : List Value} (hvs : AllEvery p vs) (hmem : ∀ v ∈ v?, v ∈ vs) :
      Does p b args (pure (v?.getD .null)) := by
    cases v? with
    | none => exact .give Value.every_null
    | some v => exact .give (hvs v (hmem v rfl))
  cases b with
  | len =>
    refine does_withOne h fun v _ _ => ?_
    split
    · exact .give (Value.every_integer _)
    · exact .give (Value.every_integer _)
    · exact .give (Value.every_error _)
  | first => exact does_withArray h fun _ vs _ hvs => hoption hvs fun v => List.mem_of_head?
  | last => exact does_withArray h fun _ vs _ hvs => hoption hvs fun v => List.mem_of_getLast?
  | rest =>
    refine does_withArray h fun mark vs hargs hvs => ?_
    split
    · exact .give Value.every_null
    · exact .make (hargs ▸ .rest) (allEvery_cons.1 hvs).2
  | push =>
    unfold call
    dsimp only
    split
    · obtain ⟨harray, hv⟩ := allEvery_cons.1 h
      exact .make .push ((Value.every_array.1 harray).2.append hv)
    · exact .give (Value.every_error _)
    · exact .give (Value.every_error _)
  | puts => exact .write args

end Builtin

end Monkey
