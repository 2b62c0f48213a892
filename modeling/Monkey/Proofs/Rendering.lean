import Monkey.Program.Render
import Monkey.Proofs.Completeness
import Monkey.Proofs.Scanning

namespace Monkey
open Parse

/-- A word that is no keyword, as it is written for a name. -/
def Ident.isReadable (id : Ident) : Bool :=
  Text.isWord id.name.toList && Kind.ofWord id.name.toList = .ident

/-- An operator of one of these kinds, with the text of its kind. -/
def Token.isReadable (kinds : List Kind) (op : Token) : Bool :=
  op.kind ∈ kinds && op.text = op.kind.name

def prefixes : List Kind :=
  [.bang, .minus]

def infixes : List Kind :=
  [.equal, .notEqual, .less, .greater, .plus, .minus, .star, .slash]

theorem level_of_mem_infixes :
    ∀ k ∈ infixes, k ∈ (Level.ofKind k).infixes ∧ Level.equality.rank ≤ (Level.ofKind k).rank := by
  decide

mutual

/-- Whether the written form of an expression can be read back: strings are written without quotes, and
conditions and functions without the braces around their statements. -/
def Expr.isReadable : Expr → Bool
  | .ident id => id.isReadable
  | .int n => 0 ≤ n
  | .bool _ => true
  | .unary op right => op.isReadable prefixes && right.isReadable
  | .binary left op right => left.isReadable && op.isReadable infixes && right.isReadable
  | .call callee args => callee.isReadable && areReadable args
  | .array elements => areReadable elements
  | .index left index => left.isReadable && index.isReadable
  | .hash pairs => pairsReadable pairs
  | .string _ | .cond _ _ _ | .function _ _ => false

def areReadable : List Expr → Bool
  | [] => true
  | e :: es => e.isReadable && areReadable es

def pairsReadable : List (Expr × Expr) → Bool
  | [] => true
  | (k, v) :: ps => k.isReadable && v.isReadable && pairsReadable ps

end

/-- Whether the written form of statements can be read back: only the last may be an expression, which has
no semicolon. -/
def stmtsReadable : List Stmt → Bool
  | [] => true
  | .bind name value :: ss => name.isReadable && value.isReadable && stmtsReadable ss
  | .give value :: ss => value.isReadable && stmtsReadable ss
  | [.expr value] => value.isReadable
  | .expr _ :: _ :: _ => false

theorem stops_cons {c : Char} (hc : Text.isWordChar c = false) (cs : List Char) : Stops (c :: cs) := by
  intro d hd
  rw [← Option.some_inj.1 hd]
  exact hc

theorem Token.bare_of_isReadable {kinds : List Kind} {op : Token} (h : op.isReadable kinds) :
    op.kind ∈ kinds ∧ op.text = op.kind.name ∧ op.bare = op.kind.token := by
  rw [isReadable, Bool.and_eq_true, decide_eq_true_iff, decide_eq_true_iff] at h
  refine ⟨h.1, h.2, ?_⟩
  rw [bare, Kind.token, h.2]

section reads

variable {cs : List Char} {us : List Token}

theorem Reads.prefixed (h : Reads cs us) {op : Token} (hop : op.isReadable prefixes)
    (hcs : cs.head? ≠ some '=') : Reads (op.text.toList ++ cs) (op.bare :: us) := by
  obtain ⟨hkind, htext, hbare⟩ := Token.bare_of_isReadable hop
  rw [htext, hbare]
  simp only [prefixes, List.mem_cons, List.not_mem_nil, or_false] at hkind
  rcases hkind with hkind | hkind <;> rw [hkind]
  · exact h.symbol (c := '!') rfl (fun _ => hcs) (by simp)
  · exact h.mark '-' (by decide) rfl

theorem Reads.infixed (h : Reads cs us) {op : Token} (hop : op.isReadable infixes) :
    Reads (op.text.toList ++ ' ' :: cs) (op.bare :: us) := by
  obtain ⟨hkind, htext, hbare⟩ := Token.bare_of_isReadable hop
  rw [htext, hbare]
  simp only [infixes, List.mem_cons, List.not_mem_nil, or_false] at hkind
  rcases hkind with hkind | hkind | hkind | hkind | hkind | hkind | hkind | hkind <;> rw [hkind]
  · exact (h.blank (by decide)).double (.inl ⟨rfl, rfl⟩)
  · exact (h.blank (by decide)).double (.inr ⟨rfl, rfl⟩)
  · exact h.spaced '<' rfl
  · exact h.spaced '>' rfl
  · exact h.spaced '+' rfl
  · exact h.spaced '-' rfl
  · exact h.spaced '*' rfl
  · exact h.spaced '/' rfl

theorem Reads.ident (h : Reads cs us) {id : Ident} (hid : id.isReadable) (hcs : Stops cs) :
    Reads (id.name.toList ++ cs) (.synthetic .ident id.name :: us) := by
  rw [Ident.isReadable, Bool.and_eq_true, decide_eq_true_iff] at hid
  have hword := h.word hid.1 hcs
  rwa [hid.2, String.ofList_toList] at hword

theorem Reads.number (h : Reads cs us) (n : Nat) (hcs : Stops cs) :
    Reads ((Text.decimal n).toList ++ cs) (.synthetic .int (Text.decimal n) :: us) := by
  rw [Text.decimal_natCast, String.toList_ofList]
  have hall (c : Char) (hc : c ∈ Text.digits n) := Text.isDigit_of_mem_digits hc
  rcases hdigits : Text.digits n with _ | ⟨c, more⟩
  · exact absurd hdigits (Text.digits_ne_nil n)
  · rw [hdigits] at hall
    exact h.numeral (hall c List.mem_cons_self) (fun d hd => hall d (List.mem_cons_of_mem c hd)) hcs

end reads

/-- A number that is not too large is spelled by its decimal form. -/
theorem primary_decimal {n : Nat} (h : n ≤ maxNumeral) :
    Primary [.synthetic .int (Text.decimal n)] (.int (.ofNat n)) := by
  have hvalue := Nat.le_trans (Nat.le_of_eq (Text.value_decimal n)) h
  have hprimary := Primary.int (t := .synthetic .int (Text.decimal n)) rfl hvalue
  change Primary _ (.int (.ofNat (Text.value (Text.decimal n).toList))) at hprimary
  rwa [Text.value_decimal] at hprimary

/-- The written form of an expression is scanned into these tokens, and they spell the expression. -/
structure Expr.SpelledBy (e : Expr) (us : List Token) : Prop where
  phrase : Phrase .call us e.bare
  reads : ∀ cs vs, Stops cs → Reads cs vs → Reads (e.render.toList ++ cs) (us ++ vs)
  head : ∀ cs, (e.render.toList ++ cs).head? ≠ some '='

/-- The same for expressions between commas. -/
structure SpelledAllBy (es : List Expr) (us : List Token) : Prop where
  elements : Elements us (bareAll es)
  reads : ∀ cs vs, Stops cs → Reads cs vs →
    Reads ((", ".intercalate (renderAll es)).toList ++ cs) (us ++ vs)

structure SpelledPairsBy (ps : List (Expr × Expr)) (us : List Token) : Prop where
  pairs : Pairs us (barePairs ps)
  reads : ∀ cs vs, Stops cs → Reads cs vs →
    Reads ((", ".intercalate (renderPairs ps)).toList ++ cs) (us ++ vs)

namespace Expr.SpelledBy

theorem ident {id : Ident} (h : id.isReadable) : SpelledBy (.ident id) [.synthetic .ident id.name] where
  phrase := .primary (.ident rfl)
  reads cs vs hcs hvs := hvs.ident h hcs
  head cs := by
    rw [Ident.isReadable, Bool.and_eq_true] at h
    rw [render]
    rcases hname : id.name.toList with _ | ⟨c, more⟩
    · rw [hname] at h
      exact nomatch h.1
    · rw [List.cons_append, List.head?_cons, ne_eq, Option.some_inj]
      rintro rfl
      rw [hname, Text.isWord, Bool.and_eq_true] at h
      exact absurd h.1.1 (by decide)

theorem int {n : Int64} (h : 0 ≤ n) :
    SpelledBy (.int n) [.synthetic .int (Text.decimal n.toInt)] := by
  have hn : 0 ≤ n.toInt := Int64.le_iff_toInt_le.1 h
  obtain ⟨k, hk⟩ := Int.eq_ofNat_of_zero_le hn
  have hle : k ≤ maxNumeral := by
    have hlt := n.toInt_lt
    rw [hk] at hlt
    rw [maxNumeral]
    omega
  have hint : n = .ofNat k := by
    rw [← Int64.ofInt_toInt n, hk, Int64.ofInt_eq_ofNat]
  refine ⟨?_, fun cs vs hcs hvs => ?_, fun cs => ?_⟩
  · rw [hk, Expr.bare, hint]
    exact .primary (primary_decimal hle)
  · rw [Expr.render, hk]
    exact hvs.number k hcs
  · rw [Expr.render, hk, Text.decimal_natCast, String.toList_ofList]
    rcases hdigits : Text.digits k with _ | ⟨c, more⟩
    · exact absurd hdigits (Text.digits_ne_nil k)
    · rw [List.cons_append, List.head?_cons, ne_eq, Option.some_inj]
      rintro rfl
      have hdigit : Text.isDigit '=' := Text.isDigit_of_mem_digits (hdigits ▸ List.mem_cons_self)
      exact absurd hdigit (by decide)

theorem bool (b : Bool) :
    SpelledBy (.bool b) [if b then .synthetic .trueWord "true" else .synthetic .falseWord "false"] := by
  cases b with
  | true =>
    refine ⟨.primary (.trueWord rfl), fun cs vs hcs hvs => ?_, by simp⟩
    exact hvs.keyword (w := "true") (by decide) hcs
  | false =>
    refine ⟨.primary (.falseWord rfl), fun cs vs hcs hvs => ?_, by simp⟩
    exact hvs.keyword (w := "false") (by decide) hcs

theorem unary {op : Token} {right : Expr} {us : List Token} (hop : op.isReadable prefixes)
    (h : right.SpelledBy us) :
    SpelledBy (.unary op right) (Kind.parenL.token :: (op.bare :: us) ++ [Kind.parenR.token]) where
  phrase := by
    have hbare := Token.bare_of_isReadable hop
    have hright : Phrase .unary us right.bare := h.phrase.loosen (by decide)
    have hphrase : Phrase .unary (op.bare :: us) (.unary op.bare right.bare) := .unary hbare.1 hright
    exact .primary (.group rfl (hphrase.loosen (by decide)) rfl)
  reads cs vs hcs hvs := by
    have hclose := hvs.mark ')' (by decide) rfl
    have hright := h.reads _ _ (stops_cons (by decide) cs) hclose
    have hopening := (hright.prefixed hop (h.head _)).mark '(' (by decide) rfl
    simpa using hopening
  head cs := by simp

theorem binary {left right : Expr} {op : Token} {us vs : List Token} (hl : left.SpelledBy us)
    (hop : op.isReadable infixes) (hr : right.SpelledBy vs) :
    SpelledBy (.binary left op right)
      (Kind.parenL.token :: (us ++ op.bare :: vs) ++ [Kind.parenR.token]) where
  phrase := by
    have hbare := Token.bare_of_isReadable hop
    have hlevel := level_of_mem_infixes _ hbare.1
    have hphrase : Phrase (Level.ofKind op.kind) (us ++ op.bare :: vs)
        (.binary left.bare op.bare right.bare) :=
      .binary hlevel.1 (hl.phrase.loosen (Level.rank_le_call _)) (hr.phrase.loosen (Level.rank_le_call _))
    exact .primary (.group rfl (hphrase.loosen hlevel.2) rfl)
  reads cs ws hcs hws := by
    have hclose := hws.mark ')' (by decide) rfl
    have hright := hr.reads _ _ (stops_cons (by decide) cs) hclose
    have hinfix := (hright.infixed hop).blank (c := ' ') (by decide)
    have hleft := hl.reads _ _ (stops_cons (by decide) _) hinfix
    have hopening := hleft.mark '(' (by decide) rfl
    simpa using hopening
  head cs := by simp

theorem call {callee : Expr} {args : List Expr} {us vs : List Token} (hc : callee.SpelledBy us)
    (ha : SpelledAllBy args vs) :
    SpelledBy (.call callee args) (us ++ Kind.parenL.token :: vs ++ [Kind.parenR.token]) where
  phrase := .call hc.phrase rfl ha.elements rfl
  reads cs ws hcs hws := by
    have hclose := hws.mark ')' (by decide) rfl
    have hargs := ha.reads _ _ (stops_cons (by decide) cs) hclose
    have hopening := hargs.mark '(' (by decide) rfl
    have hcallee := hc.reads _ _ (stops_cons (by decide) _) hopening
    simpa using hcallee
  head cs := by
    have hhead := hc.head ('(' :: ((", ".intercalate (renderAll args)).toList ++ ')' :: cs))
    simpa using hhead

theorem array {elements : List Expr} {us : List Token} (h : SpelledAllBy elements us) :
    SpelledBy (.array elements) (Kind.bracketL.token :: us ++ [Kind.bracketR.token]) where
  phrase := .primary (.array rfl h.elements rfl)
  reads cs vs hcs hvs := by
    have hclose := hvs.mark ']' (by decide) rfl
    have helements := h.reads _ _ (stops_cons (by decide) cs) hclose
    have hopening := helements.mark '[' (by decide) rfl
    simpa using hopening
  head cs := by simp

theorem index {left index : Expr} {us vs : List Token} (hl : left.SpelledBy us)
    (hi : index.SpelledBy vs) :
    SpelledBy (.index left index)
      (Kind.parenL.token :: (us ++ Kind.bracketL.token :: vs ++ [Kind.bracketR.token]) ++
        [Kind.parenR.token]) where
  phrase := by
    have hphrase : Phrase .call (us ++ Kind.bracketL.token :: vs ++ [Kind.bracketR.token])
        (.index left.bare index.bare) := .index hl.phrase rfl (hi.phrase.loosen (by decide)) rfl
    exact .primary (.group rfl (hphrase.loosen (by decide)) rfl)
  reads cs ws hcs hws := by
    have hclose := (hws.mark ')' (by decide) rfl).mark ']' (by decide) rfl
    have hindex := hi.reads _ _ (stops_cons (by decide) _) hclose
    have hleft := hl.reads _ _ (stops_cons (by decide) _) (hindex.mark '[' (by decide) rfl)
    have hopening := hleft.mark '(' (by decide) rfl
    simpa using hopening
  head cs := by simp

theorem hash {pairs : List (Expr × Expr)} {us : List Token} (h : SpelledPairsBy pairs us) :
    SpelledBy (.hash pairs) (Kind.braceL.token :: us ++ [Kind.braceR.token]) where
  phrase := .primary (.hash rfl h.pairs rfl)
  reads cs vs hcs hvs := by
    have hclose := hvs.mark '\x7d' (by decide) rfl
    have hpairs := h.reads _ _ (stops_cons (by decide) cs) hclose
    have hopening := hpairs.mark '\x7b' (by decide) rfl
    simpa using hopening
  head cs := by simp

end Expr.SpelledBy

/-- A comma and a blank are scanned as the comma. -/
theorem Reads.comma {cs : List Char} {us : List Token} (h : Reads cs us) :
    Reads (',' :: ' ' :: cs) (Kind.comma.token :: us) :=
  (h.blank (c := ' ') (by decide)).mark ',' (by decide) rfl

namespace SpelledAllBy

theorem nil : SpelledAllBy [] [] where
  elements := .nil
  reads cs vs hcs hvs := by simpa using hvs

theorem one {e : Expr} {us : List Token} (h : e.SpelledBy us) : SpelledAllBy [e] us where
  elements := .one (h.phrase.loosen (by decide))
  reads cs vs hcs hvs := by simpa using h.reads cs vs hcs hvs

theorem cons {e e' : Expr} {es : List Expr} {us vs : List Token} (h : e.SpelledBy us)
    (hes : SpelledAllBy (e' :: es) vs) : SpelledAllBy (e :: e' :: es) (us ++ Kind.comma.token :: vs) where
  elements := .cons (h.phrase.loosen (by decide)) rfl hes.elements (by simp [bareAll])
  reads cs ws hcs hws := by
    have hrest := (hes.reads cs ws hcs hws).comma
    have hfirst := h.reads _ _ (stops_cons (by decide) _) hrest
    simpa [String.intercalate_cons_cons] using hfirst

end SpelledAllBy

namespace SpelledPairsBy

theorem nil : SpelledPairsBy [] [] where
  pairs := .nil
  reads cs vs hcs hvs := by simpa using hvs

variable {k v : Expr} {us vs : List Token}

/-- One pair, with a colon and a blank in it. -/
theorem reads_pair (hk : k.SpelledBy us) (hv : v.SpelledBy vs) {cs : List Char} {ws : List Token}
    (hcs : Stops cs) (hws : Reads cs ws) :
    Reads ((k.render ++ ": " ++ v.render).toList ++ cs) (us ++ Kind.colon.token :: vs ++ ws) := by
  have hvalue := (hv.reads cs ws hcs hws).blank (c := ' ') (by decide)
  have hkey := hk.reads _ _ (stops_cons (by decide) _) (hvalue.mark ':' (by decide) rfl)
  simpa using hkey

theorem one (hk : k.SpelledBy us) (hv : v.SpelledBy vs) :
    SpelledPairsBy [(k, v)] (us ++ Kind.colon.token :: vs) where
  pairs := .one (hk.phrase.loosen (by decide)) rfl (hv.phrase.loosen (by decide))
  reads cs ws hcs hws := by simpa using reads_pair hk hv hcs hws

theorem cons {p : Expr × Expr} {ps : List (Expr × Expr)} {ws : List Token} (hk : k.SpelledBy us)
    (hv : v.SpelledBy vs) (hps : SpelledPairsBy (p :: ps) ws) :
    SpelledPairsBy ((k, v) :: p :: ps) (us ++ Kind.colon.token :: vs ++ Kind.comma.token :: ws) where
  pairs := .cons (hk.phrase.loosen (by decide)) rfl (hv.phrase.loosen (by decide)) rfl hps.pairs
  reads cs xs hcs hxs := by
    have hrest := (hps.reads cs xs hcs hxs).comma
    have hfirst := reads_pair hk hv (stops_cons (by decide) _) hrest
    simpa [String.intercalate_cons_cons] using hfirst

end SpelledPairsBy

mutual

theorem Expr.spelled : (e : Expr) → e.isReadable → ∃ us, e.SpelledBy us
  | .ident id, h => ⟨_, .ident h⟩
  | .int n, h => ⟨_, .int (of_decide_eq_true h)⟩
  | .bool b, _ => ⟨_, .bool b⟩
  | .unary op right, h => by
    rw [Expr.isReadable, Bool.and_eq_true] at h
    obtain ⟨us, hright⟩ := right.spelled h.2
    exact ⟨_, .unary h.1 hright⟩
  | .binary left op right, h => by
    rw [Expr.isReadable, Bool.and_eq_true, Bool.and_eq_true] at h
    obtain ⟨us, hleft⟩ := left.spelled h.1.1
    obtain ⟨vs, hright⟩ := right.spelled h.2
    exact ⟨_, .binary hleft h.1.2 hright⟩
  | .call callee args, h => by
    rw [Expr.isReadable, Bool.and_eq_true] at h
    obtain ⟨us, hcallee⟩ := callee.spelled h.1
    obtain ⟨vs, hargs⟩ := spelledAll args h.2
    exact ⟨_, .call hcallee hargs⟩
  | .array elements, h => by
    obtain ⟨us, helements⟩ := spelledAll elements h
    exact ⟨_, .array helements⟩
  | .index left index, h => by
    rw [Expr.isReadable, Bool.and_eq_true] at h
    obtain ⟨us, hleft⟩ := left.spelled h.1
    obtain ⟨vs, hindex⟩ := index.spelled h.2
    exact ⟨_, .index hleft hindex⟩
  | .hash pairs, h => by
    obtain ⟨us, hpairs⟩ := spelledPairs pairs h
    exact ⟨_, .hash hpairs⟩

theorem spelledAll : (es : List Expr) → areReadable es → ∃ us, SpelledAllBy es us
  | [], _ => ⟨[], .nil⟩
  | [e], h => by
    rw [areReadable, Bool.and_eq_true] at h
    obtain ⟨us, he⟩ := e.spelled h.1
    exact ⟨us, .one he⟩
  | e :: e' :: es, h => by
    rw [areReadable, Bool.and_eq_true] at h
    obtain ⟨us, he⟩ := e.spelled h.1
    obtain ⟨vs, hes⟩ := spelledAll (e' :: es) h.2
    exact ⟨_, .cons he hes⟩

theorem spelledPairs : (ps : List (Expr × Expr)) → pairsReadable ps → ∃ us, SpelledPairsBy ps us
  | [], _ => ⟨[], .nil⟩
  | [(k, v)], h => by
    rw [pairsReadable, Bool.and_eq_true, Bool.and_eq_true] at h
    obtain ⟨us, hk⟩ := k.spelled h.1.1
    obtain ⟨vs, hv⟩ := v.spelled h.1.2
    exact ⟨_, .one hk hv⟩
  | (k, v) :: p :: ps, h => by
    rw [pairsReadable, Bool.and_eq_true, Bool.and_eq_true] at h
    obtain ⟨us, hk⟩ := k.spelled h.1.1
    obtain ⟨vs, hv⟩ := v.spelled h.1.2
    obtain ⟨ws, hps⟩ := spelledPairs (p :: ps) h.2
    exact ⟨_, .cons hk hv hps⟩

end

end Monkey
