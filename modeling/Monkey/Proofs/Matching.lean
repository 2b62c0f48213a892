import Monkey.Eval
import Monkey.Proofs.Arrangement
import Monkey.Proofs.Bare

namespace Monkey

section programs

variable (names : String → Prop)

mutual

/-- The expressions are the same up to the places of their parts, and all names looked up in them are among
`names`. -/
inductive Expr.Matches : Expr → Expr → Prop
  | ident {id id' : Ident} : id.name = id'.name → names id.name → Expr.Matches (.ident id) (.ident id')
  | int (n : Int64) : Expr.Matches (.int n) (.int n)
  | string (s : String) : Expr.Matches (.string s) (.string s)
  | bool (b : Bool) : Expr.Matches (.bool b) (.bool b)
  | unary {op op' : Token} {right right' : Expr} :
    op.bare = op'.bare → right.Matches right' → Expr.Matches (.unary op right) (.unary op' right')
  | binary {op op' : Token} {left left' right right' : Expr} :
    left.Matches left' → op.bare = op'.bare → right.Matches right' →
    Expr.Matches (.binary left op right) (.binary left' op' right')
  | cond {test test' : Expr} {yes yes' : List Stmt} :
    test.Matches test' → StmtsMatch yes yes' → Expr.Matches (.cond test yes none) (.cond test' yes' none)
  | condElse {test test' : Expr} {yes yes' no no' : List Stmt} :
    test.Matches test' → StmtsMatch yes yes' → StmtsMatch no no' →
    Expr.Matches (.cond test yes (some no)) (.cond test' yes' (some no'))
  | function {params params' : List Ident} {body body' : List Stmt} :
    params.map (·.name) = params'.map (·.name) → StmtsMatch body body' →
    Expr.Matches (.function params body) (.function params' body')
  | call {callee callee' : Expr} {args args' : List Expr} :
    callee.Matches callee' → AllMatch args args' → Expr.Matches (.call callee args) (.call callee' args')
  | array {elements elements' : List Expr} :
    AllMatch elements elements' → Expr.Matches (.array elements) (.array elements')
  | index {left left' index index' : Expr} :
    left.Matches left' → index.Matches index' → Expr.Matches (.index left index) (.index left' index')
  | hash {pairs pairs' : List (Expr × Expr)} :
    PairsMatch pairs pairs' → Expr.Matches (.hash pairs) (.hash pairs')

inductive Stmt.Matches : Stmt → Stmt → Prop
  | bind {name name' : Ident} {value value' : Expr} :
    name.name = name'.name → value.Matches value' → Stmt.Matches (.bind name value) (.bind name' value')
  | give {value value' : Expr} : value.Matches value' → Stmt.Matches (.give value) (.give value')
  | expr {value value' : Expr} : value.Matches value' → Stmt.Matches (.expr value) (.expr value')

inductive AllMatch : List Expr → List Expr → Prop
  | nil : AllMatch [] []
  | cons {e e' : Expr} {es es' : List Expr} :
    e.Matches e' → AllMatch es es' → AllMatch (e :: es) (e' :: es')

inductive PairsMatch : List (Expr × Expr) → List (Expr × Expr) → Prop
  | nil : PairsMatch [] []
  | cons {k k' v v' : Expr} {ps ps' : List (Expr × Expr)} :
    k.Matches k' → v.Matches v' → PairsMatch ps ps' → PairsMatch ((k, v) :: ps) ((k', v') :: ps')

inductive StmtsMatch : List Stmt → List Stmt → Prop
  | nil : StmtsMatch [] []
  | cons {s s' : Stmt} {ss ss' : List Stmt} :
    s.Matches s' → StmtsMatch ss ss' → StmtsMatch (s :: ss) (s' :: ss')

end

end programs

section bare

theorem Token.kind_eq_of_bare {t t' : Token} (h : t.bare = t'.bare) : t.kind = t'.kind := by
  show t.bare.kind = t'.bare.kind
  rw [h]

theorem Token.text_eq_of_bare {t t' : Token} (h : t.bare = t'.bare) : t.text = t'.text := by
  show t.bare.text = t'.bare.text
  rw [h]

theorem Ident.names_bare (params : List Ident) :
    params.map (·.name) = (params.map Ident.bare).map (·.name) := by
  rw [List.map_map]
  rfl

mutual

/-- Without its places an expression is the same one. -/
theorem Expr.matches_bare : ∀ e : Expr, e.Matches (fun _ => True) e.bare
  | .ident _ => .ident rfl trivial
  | .int n => .int n
  | .string s => .string s
  | .bool b => .bool b
  | .unary _ right => .unary rfl right.matches_bare
  | .binary left _ right => .binary left.matches_bare rfl right.matches_bare
  | .cond test yes none => .cond test.matches_bare (stmtsMatch_bare yes)
  | .cond test yes (some no) => .condElse test.matches_bare (stmtsMatch_bare yes) (stmtsMatch_bare no)
  | .function params body => .function (Ident.names_bare params) (stmtsMatch_bare body)
  | .call callee args => .call callee.matches_bare (allMatch_bare args)
  | .array elements => .array (allMatch_bare elements)
  | .index left index => .index left.matches_bare index.matches_bare
  | .hash pairs => .hash (pairsMatch_bare pairs)

theorem Stmt.matches_bare : ∀ s : Stmt, s.Matches (fun _ => True) s.bare
  | .bind _ value => .bind rfl value.matches_bare
  | .give value => .give value.matches_bare
  | .expr value => .expr value.matches_bare

theorem allMatch_bare : ∀ es : List Expr, AllMatch (fun _ => True) es (bareAll es)
  | [] => .nil
  | e :: es => .cons e.matches_bare (allMatch_bare es)

theorem pairsMatch_bare : ∀ ps : List (Expr × Expr), PairsMatch (fun _ => True) ps (barePairs ps)
  | [] => .nil
  | (k, v) :: ps => .cons k.matches_bare v.matches_bare (pairsMatch_bare ps)

theorem stmtsMatch_bare : ∀ ss : List Stmt, StmtsMatch (fun _ => True) ss (bareStmts ss)
  | [] => .nil
  | s :: ss => .cons s.matches_bare (stmtsMatch_bare ss)

end

end bare

section render

variable {names : String → Prop}

mutual

/-- No place is to be seen in the written form. -/
theorem Expr.Matches.render_eq {e e' : Expr} : e.Matches names e' → e.render = e'.render
  | .ident h _ => h
  | .int _ | .string _ | .bool _ => rfl
  | .unary hop hright => by
    rw [Expr.render, Expr.render, Token.text_eq_of_bare hop, hright.render_eq]
  | .binary hleft hop hright => by
    rw [Expr.render, Expr.render, hleft.render_eq, Token.text_eq_of_bare hop, hright.render_eq]
  | .cond htest hyes => by
    rw [Expr.render, Expr.render, htest.render_eq, hyes.render_eq]
  | .condElse htest hyes hno => by
    rw [Expr.render, Expr.render, htest.render_eq, hyes.render_eq, hno.render_eq]
  | .function hparams hbody => by
    rw [Expr.render, Expr.render, hparams, hbody.render_eq]
  | .call hcallee hargs => by
    rw [Expr.render, Expr.render, hcallee.render_eq, hargs.render_eq]
  | .array helements => by
    rw [Expr.render, Expr.render, helements.render_eq]
  | .index hleft hindex => by
    rw [Expr.render, Expr.render, hleft.render_eq, hindex.render_eq]
  | .hash hpairs => by
    rw [Expr.render, Expr.render, hpairs.render_eq]

theorem Stmt.Matches.render_eq {s s' : Stmt} : s.Matches names s' → s.render = s'.render
  | .bind hname hvalue => by
    rw [Stmt.render, Stmt.render, hname, hvalue.render_eq]
  | .give hvalue => by
    rw [Stmt.render, Stmt.render, hvalue.render_eq]
  | .expr hvalue => hvalue.render_eq

theorem AllMatch.render_eq {es es' : List Expr} : AllMatch names es es' → renderAll es = renderAll es'
  | .nil => rfl
  | .cons he hes => by
    rw [renderAll, renderAll, he.render_eq, hes.render_eq]

theorem PairsMatch.render_eq {ps ps' : List (Expr × Expr)} :
    PairsMatch names ps ps' → renderPairs ps = renderPairs ps'
  | .nil => rfl
  | .cons hk hv hps => by
    rw [renderPairs, renderPairs, hk.render_eq, hv.render_eq, hps.render_eq]

theorem StmtsMatch.render_eq {ss ss' : List Stmt} :
    StmtsMatch names ss ss' → renderStmts ss = renderStmts ss'
  | .nil => rfl
  | .cons hs hss => by
    rw [renderStmts, renderStmts, hs.render_eq, hss.render_eq]

end

end render

/-- Which frames and marks of one run stand for which of another run, where both runs look up no names but
`names`. A frame or mark stands for one only. -/
structure Matching (names : String → Prop) where
  frames : Nat → Nat → Prop
  marks : Nat → Nat → Prop
  frames_iff : ∀ {f f' g g'}, frames f f' → frames g g' → (f = g ↔ f' = g')
  marks_iff : ∀ {k k' l l'}, marks k k' → marks l l' → (k = l ↔ k' = l')

namespace Matching

variable {names : String → Prop}

/-- Before anything has been made. -/
def empty (names : String → Prop) : Matching names :=
  ⟨fun _ _ => False, fun _ _ => False, nofun, nofun⟩

/-- Later in both runs, more frames and marks stand for each other. -/
structure Within (M N : Matching names) : Prop where
  frames : ∀ {f f'}, M.frames f f' → N.frames f f'
  marks : ∀ {k k'}, M.marks k k' → N.marks k k'

theorem Within.refl (M : Matching names) : M.Within M :=
  ⟨id, id⟩

theorem Within.trans {M N O : Matching names} (h : M.Within N) (h' : N.Within O) : M.Within O :=
  ⟨h'.frames ∘ h.frames, h'.marks ∘ h.marks⟩

/-- Two new frames stand for each other. -/
def withFrame (M : Matching names) (f f' : Nat) (h : ∀ {g g'}, M.frames g g' → g < f ∧ g' < f') :
    Matching names where
  frames g g' := M.frames g g' ∨ g = f ∧ g' = f'
  marks := M.marks
  frames_iff := by
    rintro g g' i i' (hg | ⟨rfl, rfl⟩) (hi | ⟨rfl, rfl⟩)
    · exact M.frames_iff hg hi
    · have := h hg
      omega
    · have := h hi
      omega
    · omega
  marks_iff := M.marks_iff

theorem within_withFrame {M : Matching names} {f f' : Nat}
    {h : ∀ {g g'}, M.frames g g' → g < f ∧ g' < f'} : M.Within (M.withFrame f f' h) :=
  ⟨.inl, id⟩

theorem frames_withFrame {M : Matching names} {f f' : Nat}
    {h : ∀ {g g'}, M.frames g g' → g < f ∧ g' < f'} : (M.withFrame f f' h).frames f f' :=
  .inr ⟨rfl, rfl⟩

/-- Two new marks stand for each other. -/
def withMark (M : Matching names) (k k' : Nat) (h : ∀ {l l'}, M.marks l l' → l < k ∧ l' < k') :
    Matching names where
  frames := M.frames
  marks l l' := M.marks l l' ∨ l = k ∧ l' = k'
  frames_iff := M.frames_iff
  marks_iff := by
    rintro l l' i i' (hl | ⟨rfl, rfl⟩) (hi | ⟨rfl, rfl⟩)
    · exact M.marks_iff hl hi
    · have := h hl
      omega
    · have := h hi
      omega
    · omega

theorem within_withMark {M : Matching names} {k k' : Nat}
    {h : ∀ {l l'}, M.marks l l' → l < k ∧ l' < k'} : M.Within (M.withMark k k' h) :=
  ⟨id, .inl⟩

theorem marks_withMark {M : Matching names} {k k' : Nat}
    {h : ∀ {l l'}, M.marks l l' → l < k ∧ l' < k'} : (M.withMark k k' h).marks k k' :=
  .inr ⟨rfl, rfl⟩

end Matching

section values

variable {names : String → Prop} (M : Matching names)

/-- What values are known by in the two runs: it is there from the beginning, or both were made. -/
inductive Ref.Matches : Ref → Ref → Prop
  | null : Ref.Matches .null .null
  | boolean (b : Bool) : Ref.Matches (.boolean b) (.boolean b)
  | builtin (f : Builtin) : Ref.Matches (.builtin f) (.builtin f)
  | made {mark mark' : Nat} : M.marks mark mark' → Ref.Matches (.made mark) (.made mark')

mutual

/-- The values are the same up to the places in function bodies, and up to frames and marks that stand for
each other. -/
inductive Value.Matches : Value → Value → Prop
  | integer (n : Int64) : Value.Matches (.integer n) (.integer n)
  | booleanAt {ref ref' : Ref} (b : Bool) :
    ref.Matches M ref' → Value.Matches (.booleanAt ref b) (.booleanAt ref' b)
  | string (s : String) : Value.Matches (.string s) (.string s)
  | nullAt {ref ref' : Ref} : ref.Matches M ref' → Value.Matches (.nullAt ref) (.nullAt ref')
  | array {mark mark' : Nat} {vs vs' : List Value} :
    M.marks mark mark' → ValuesMatch vs vs' → Value.Matches (.array mark vs) (.array mark' vs')
  | hash {mark mark' : Nat} {es es' : List (HashKey × Value × Value)} :
    M.marks mark mark' → EntriesMatch es es' → Value.Matches (.hash mark es) (.hash mark' es')
  | function {mark mark' : Nat} {c c' : Closure} :
    M.marks mark mark' → c.params.map (·.name) = c'.params.map (·.name) →
    StmtsMatch names c.body c'.body → M.frames c.scope.frame c'.scope.frame →
    Value.Matches (.function mark c) (.function mark' c')
  | builtinAt {ref ref' : Ref} (f : Builtin) :
    ref.Matches M ref' → Value.Matches (.builtinAt ref f) (.builtinAt ref' f)
  | error (e : RuntimeError) : Value.Matches (.error e) (.error e)
  | returned {v v' : Value} : Value.Matches v v' → Value.Matches (.returned v) (.returned v')

inductive ValuesMatch : List Value → List Value → Prop
  | nil : ValuesMatch [] []
  | cons {v v' : Value} {vs vs' : List Value} :
    Value.Matches v v' → ValuesMatch vs vs' → ValuesMatch (v :: vs) (v' :: vs')

inductive EntriesMatch : List (HashKey × Value × Value) → List (HashKey × Value × Value) → Prop
  | nil : EntriesMatch [] []
  | cons {k : HashKey} {key key' v v' : Value} {es es' : List (HashKey × Value × Value)} :
    Value.Matches key key' → Value.Matches v v' → EntriesMatch es es' →
    EntriesMatch ((k, key, v) :: es) ((k, key', v') :: es')

end

end values

namespace Value.Matches

variable {names : String → Prop} {M : Matching names}

theorem null : Value.null.Matches M .null :=
  .nullAt .null

theorem boolean (b : Bool) : (Value.boolean b).Matches M (.boolean b) :=
  .booleanAt b (.boolean b)

theorem builtin (f : Builtin) : (Value.builtin f).Matches M (.builtin f) :=
  .builtinAt f (.builtin f)

end Value.Matches

section later

variable {names : String → Prop} {M N : Matching names}

theorem Ref.Matches.later (hN : M.Within N) {ref ref' : Ref} (h : ref.Matches M ref') : ref.Matches N ref' := by
  cases h with
  | null => exact .null
  | boolean b => exact .boolean b
  | builtin f => exact .builtin f
  | made hmark => exact .made (hN.marks hmark)

mutual

theorem Value.Matches.later (hN : M.Within N) {v v' : Value} : v.Matches M v' → v.Matches N v'
  | .integer n => .integer n
  | .booleanAt b href => .booleanAt b (href.later hN)
  | .string s => .string s
  | .nullAt href => .nullAt (href.later hN)
  | .array hmark hvs => .array (hN.marks hmark) (hvs.later hN)
  | .hash hmark hes => .hash (hN.marks hmark) (hes.later hN)
  | .function hmark hparams hbody hscope => .function (hN.marks hmark) hparams hbody (hN.frames hscope)
  | .builtinAt f href => .builtinAt f (href.later hN)
  | .error e => .error e
  | .returned h => .returned (h.later hN)

theorem ValuesMatch.later (hN : M.Within N) {vs vs' : List Value} : ValuesMatch M vs vs' → ValuesMatch N vs vs'
  | .nil => .nil
  | .cons hv hvs => .cons (hv.later hN) (hvs.later hN)

theorem EntriesMatch.later (hN : M.Within N) {es es' : List (HashKey × Value × Value)} :
    EntriesMatch M es es' → EntriesMatch N es es'
  | .nil => .nil
  | .cons hkey hv hes => .cons (hkey.later hN) (hv.later hN) (hes.later hN)

end

end later

namespace Value

variable {names : String → Prop} {M : Matching names} {v v' w w' : Value}

theorem Matches.type_eq (h : v.Matches M v') : v.type = v'.type := by
  cases h <;> rfl

theorem Matches.isSignal_eq (h : v.Matches M v') : v.isSignal = v'.isSignal := by
  cases h <;> rfl

theorem Matches.truthy_eq (h : v.Matches M v') : v.truthy = v'.truthy := by
  cases h <;> rfl

theorem Matches.hashKey?_eq (h : v.Matches M v') : v.hashKey? = v'.hashKey? := by
  cases h <;> rfl

theorem Matches.unwrapped (h : v.Matches M v') : v.unwrapped.Matches M v'.unwrapped := by
  cases h with
  | returned h => exact h
  | integer n => exact .integer n
  | booleanAt b href => exact .booleanAt b href
  | string s => exact .string s
  | nullAt href => exact .nullAt href
  | array hmark hvs => exact .array hmark hvs
  | hash hmark hes => exact .hash hmark hes
  | function hmark hparams hbody hscope => exact .function hmark hparams hbody hscope
  | builtinAt f href => exact .builtinAt f href
  | error e => exact .error e

theorem Matches.ref?_rel (h : v.Matches M v') : Option.Rel (Ref.Matches M) v.ref? v'.ref? := by
  cases h with
  | booleanAt b href | nullAt href | builtinAt f href => exact .some href
  | array hmark | hash hmark | function hmark => exact .some (.made hmark)
  | _ => exact .none

end Value

/-- Objects are one in one run if those that stand for them are in the other. -/
theorem Ref.Matches.eq_iff {names : String → Prop} {M : Matching names} {r r' s s' : Ref} (hr : r.Matches M r')
    (hs : s.Matches M s') : r = s ↔ r' = s' := by
  cases hr with
  | made hk =>
    cases hs with
    | made hl => rw [Ref.made.injEq, Ref.made.injEq, M.marks_iff hk hl]
    | _ => exact ⟨nofun, nofun⟩
  | _ => cases hs <;> simp

namespace Value

variable {names : String → Prop} {M : Matching names} {v v' w w' : Value}

theorem Matches.eq_null (h : Value.null.Matches M v) : v = Value.null := by
  cases h with
  | nullAt href =>
    cases href
    rfl

theorem Matches.same_eq (hv : v.Matches M v') (hw : w.Matches M w') : v.same w = v'.same w' := by
  unfold same
  have hvrel := hv.ref?_rel
  have hwrel := hw.ref?_rel
  generalize v.ref? = r, v'.ref? = r', w.ref? = s, w'.ref? = s' at hvrel hwrel
  cases hvrel with
  | none => rfl
  | some hr =>
    cases hwrel with
    | none => rfl
    | some hs => exact decide_eq_decide.2 (hr.eq_iff hs)

theorem Matches.unary (h : v.Matches M v') {op op' : Token} (hop : op.bare = op'.bare) :
    (v.unary op).Matches M (v'.unary op') := by
  unfold Value.unary
  rw [Token.kind_eq_of_bare hop, Token.text_eq_of_bare hop, h.truthy_eq, h.type_eq]
  split
  · exact .boolean _
  · cases h with
    | integer n => exact .integer _
    | _ => exact .error _
  · exact .error _

theorem Matches.binaryObject (hv : v.Matches M v') (hw : w.Matches M w') {op op' : Token}
    (hop : op.bare = op'.bare) : (binaryObject op v w).Matches M (binaryObject op' v' w') := by
  unfold Value.binaryObject
  rw [Token.kind_eq_of_bare hop, Token.text_eq_of_bare hop, hv.same_eq hw, hv.type_eq, hw.type_eq]
  split
  · exact .boolean _
  · exact .boolean _
  · split <;> exact .error _

theorem matches_binaryInteger {op op' : Token} (hop : op.bare = op'.bare) (a b : Int64) :
    (binaryInteger op a b).Matches M (binaryInteger op' a b) := by
  unfold binaryInteger
  rw [Token.kind_eq_of_bare hop, Token.text_eq_of_bare hop]
  split
  · exact .integer _
  · exact .integer _
  · exact .integer _
  · split
    · exact .error _
    · exact .integer _
  · exact .boolean _
  · exact .boolean _
  · exact .boolean _
  · exact .boolean _
  · exact .error _

theorem matches_binaryString {op op' : Token} (hop : op.bare = op'.bare) (a b : String) :
    (binaryString op a b).Matches M (binaryString op' a b) := by
  unfold binaryString
  rw [Token.kind_eq_of_bare hop, Token.text_eq_of_bare hop]
  split
  · exact .string _
  · exact .error _

theorem Matches.binary (hv : v.Matches M v') (hw : w.Matches M w') {op op' : Token}
    (hop : op.bare = op'.bare) : (binary op v w).Matches M (binary op' v' w') := by
  unfold Value.binary
  split
  · next a b =>
    cases hv
    cases hw
    exact matches_binaryInteger hop a b
  · next s t =>
    cases hv
    cases hw
    exact matches_binaryString hop s t
  · next hinteger hstring =>
    split
    · cases hv
      cases hw
      exact (hinteger _ _ rfl rfl).elim
    · cases hv
      cases hw
      exact (hstring _ _ rfl rfl).elim
    · exact hv.binaryObject hw hop

end Value

section lists

variable {names : String → Prop} {M : Matching names}

theorem ValuesMatch.length_eq {vs vs' : List Value} : ValuesMatch M vs vs' → vs.length = vs'.length
  | .nil => rfl
  | .cons _ hvs => congrArg (· + 1) hvs.length_eq

theorem ValuesMatch.getElem? {vs vs' : List Value} :
    ValuesMatch M vs vs' → ∀ n : Nat, ((vs[n]?).getD .null).Matches M ((vs'[n]?).getD .null)
  | .nil, _ => .null
  | .cons hv _, 0 => hv
  | .cons _ hvs, n + 1 => hvs.getElem? n

theorem ValuesMatch.append {vs vs' ws ws' : List Value} :
    ValuesMatch M vs vs' → ValuesMatch M ws ws' → ValuesMatch M (vs ++ ws) (vs' ++ ws')
  | .nil, hws => hws
  | .cons hv hvs, hws => .cons hv (hvs.append hws)

theorem EntriesMatch.length_eq {es es' : Entries} : EntriesMatch M es es' → es.length = es'.length
  | .nil => rfl
  | .cons _ _ hes => congrArg (· + 1) hes.length_eq

theorem EntriesMatch.get? {es es' : Entries} (k : HashKey) :
    EntriesMatch M es es' → ((es.get? k).getD .null).Matches M ((es'.get? k).getD .null) := by
  intro hall
  induction es generalizing es' with
  | nil =>
    cases hall
    exact .null
  | cons e es ih =>
    cases hall with
    | cons _ hv hes =>
      specialize ih hes
      simp only [Entries.get?, List.lookup_cons] at ih ⊢
      split
      · exact hv
      · exact ih

theorem EntriesMatch.insert {es es' : Entries} {k : HashKey} {key key' v v' : Value}
    (hkey : key.Matches M key') (hv : v.Matches M v') :
    EntriesMatch M es es' → EntriesMatch M (es.insert k key v) (es'.insert k key' v') := by
  intro hall
  induction es generalizing es' with
  | nil =>
    cases hall
    exact .cons hkey hv .nil
  | cons e es ih =>
    cases hall with
    | cons hother hw hes =>
      unfold Entries.insert
      split
      · exact .cons hkey hv hes
      · split
        · exact .cons hkey hv (.cons hother hw hes)
        · exact .cons hother hw (ih hes)

theorem Value.Matches.indexed {v v' w w' : Value} (hv : v.Matches M v') (hw : w.Matches M w') :
    (v.indexed w).Matches M (v'.indexed w') := by
  cases hv with
  | array hmark hvs =>
    cases hw with
    | integer n =>
      show (elementAt _ n).Matches M (elementAt _ n)
      unfold elementAt
      split
      · exact .null
      · exact hvs.getElem? _
    | _ => exact .error _
  | hash hmark hes =>
    dsimp only [Value.indexed]
    rw [hw.hashKey?_eq, hw.type_eq]
    cases hashKey? _ with
    | none => exact .error _
    | some k => exact hes.get? k
  | _ => exact .error _

mutual

/-- No place, frame or mark is to be seen in what shows a value, if all hashes are shown in one order. -/
theorem Value.Matches.display_eq {order order' : Arrangement} (horder : order.Alike order') {v v' : Value} :
    v.Matches M v' → v.display order = v'.display order'
  | .integer _ | .booleanAt _ _ | .string _ | .nullAt _ | .builtinAt _ _ | .error _ => rfl
  | .array _ hvs => by
    rw [Value.display, Value.display, hvs.display_eq horder]
  | .hash _ hes => by
    rw [Value.display, Value.display, hes.display_eq horder, horder.arrange_eq]
  | .function _ hparams hbody _ => by
    rw [Value.display, Value.display, hparams, hbody.render_eq]
  | .returned h => by
    rw [Value.display, Value.display, h.display_eq horder]

theorem ValuesMatch.display_eq {order order' : Arrangement} (horder : order.Alike order') {vs vs' : List Value} :
    ValuesMatch M vs vs' → displayAll order vs = displayAll order' vs'
  | .nil => rfl
  | .cons hv hvs => by
    rw [displayAll, displayAll, hv.display_eq horder, hvs.display_eq horder]

theorem EntriesMatch.display_eq {order order' : Arrangement} (horder : order.Alike order')
    {es es' : List (HashKey × Value × Value)} :
    EntriesMatch M es es' → displayEntries order es = displayEntries order' es'
  | .nil => rfl
  | .cons hkey hv hes => by
    rw [displayEntries, displayEntries, hkey.display_eq horder, hv.display_eq horder, hes.display_eq horder]

end

/-- Even where hashes are shown in different orders, the texts are of one length. -/
theorem Value.Matches.line_size {v v' : Value} (h : v.Matches M v') (order order' : Arrangement) :
    (v.line order).utf8ByteSize = (v'.line order').utf8ByteSize := by
  rw [v.line_size order .sorted, v'.line_size order' .sorted, line, line,
    h.display_eq Arrangement.alike_sorted]

mutual

theorem Value.Matches.showsLargeHash_eq {v v' : Value} :
    v.Matches M v' → v.showsLargeHash = v'.showsLargeHash
  | .integer _ | .booleanAt _ _ | .string _ | .nullAt _ | .function _ _ _ _ | .builtinAt _ _ | .error _ => rfl
  | .array _ hvs => hvs.showsLargeHash_eq
  | .hash _ hes => by
    rw [Value.showsLargeHash, Value.showsLargeHash, hes.length_eq, hes.showsLargeHash_eq]
  | .returned h => h.showsLargeHash_eq

theorem ValuesMatch.showsLargeHash_eq {vs vs' : List Value} :
    ValuesMatch M vs vs' → anyShowsLargeHash vs = anyShowsLargeHash vs'
  | .nil => rfl
  | .cons hv hvs => by
    rw [anyShowsLargeHash, anyShowsLargeHash, hv.showsLargeHash_eq, hvs.showsLargeHash_eq]

theorem EntriesMatch.showsLargeHash_eq {es es' : List (HashKey × Value × Value)} :
    EntriesMatch M es es' → anyEntryShowsLargeHash es = anyEntryShowsLargeHash es'
  | .nil => rfl
  | .cons hkey hv hes => by
    rw [anyEntryShowsLargeHash, anyEntryShowsLargeHash, hkey.showsLargeHash_eq, hv.showsLargeHash_eq,
      hes.showsLargeHash_eq]

end

section orders

variable {order order' : Arrangement}

/-- The texts are the same if all hashes are shown in one order or none with more than one pair is shown. -/
theorem Value.Matches.display_eq_of_small {v v' : Value} (h : v.Matches M v')
    (horder : order.Alike order' ∨ v.showsLargeHash = false) : v.display order = v'.display order' := by
  rcases horder with halike | hsmall
  · exact h.display_eq halike
  · rw [v.display_of_small order .sorted hsmall, v'.display_of_small order' .sorted (h.showsLargeHash_eq ▸ hsmall),
      h.display_eq Arrangement.alike_sorted]

theorem ValuesMatch.lines_eq {vs vs' : List Value} (h : ValuesMatch M vs vs')
    (horder : order.Alike order' ∨ ∀ v ∈ vs, v.showsLargeHash = false) :
    vs.map (·.line order) = vs'.map (·.line order') := by
  induction vs generalizing vs' with
  | nil =>
    cases h
    rfl
  | cons v vs ih =>
    cases h with
    | cons hv hvs =>
      have hdisplay := hv.display_eq_of_small (horder.imp_right fun hsmall => hsmall v List.mem_cons_self)
      rw [List.map_cons, List.map_cons, Value.line, Value.line, hdisplay,
        ih hvs (horder.imp_right fun hsmall w hw => hsmall w (List.mem_cons_of_mem _ hw))]

/-- In matching values there are as many hashes with more than one pair. -/
theorem ValuesMatch.small_iff {vs vs' : List Value} (h : ValuesMatch M vs vs') :
    (∀ v ∈ vs, v.showsLargeHash = false) ↔ ∀ v ∈ vs', v.showsLargeHash = false := by
  induction vs generalizing vs' with
  | nil =>
    cases h
    rfl
  | cons v vs ih =>
    cases h with
    | cons hv hvs => rw [List.forall_mem_cons, List.forall_mem_cons, hv.showsLargeHash_eq, ih hvs]

/-- What two runs write is the same then. -/
theorem ValuesMatch.written_eq {m m' n n' : Machine} {shown shown' : List Value} (h : ValuesMatch M shown shown')
    (hn : m.Shows n shown) (hn' : m'.Shows n' shown') (hleft : m.sink.left = m'.sink.left)
    (horder : m.order.Alike m'.order ∨ ∀ v ∈ shown, v.showsLargeHash = false) :
    ∃ output, n.sink.written = m.sink.written ++ output ∧ n'.sink.written = m'.sink.written ++ output :=
  hn.written_eq hn' hleft (h.lines_eq horder)

theorem ValuesMatch.sink_eq {m n n' : Machine} {shown shown' : List Value} (h : ValuesMatch M shown shown')
    (hn : m.Shows n shown) (hn' : m.Shows n' shown')
    (horder : m.order.Alike m.order ∨ ∀ v ∈ shown, v.showsLargeHash = false) : n'.sink = n.sink := by
  rw [hn.sink_eq, hn'.sink_eq, h.lines_eq horder]

end orders

end lists

end Monkey
