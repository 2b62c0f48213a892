import Monkey.Proofs.Hashes
import Monkey.Proofs.Meaning
import Monkey.Proofs.RoundTrip

namespace Monkey
open Parse

def Value.isScalar : Value → Bool
  | .integer _ | .booleanAt _ _ => true
  | _ => false

mutual

/-- What is built from integers, booleans, arrays, and hashes of at most one pair, whose key is an integer or a
boolean. -/
inductive Value.Data : Value → Prop
  | integer (n : Int64) : Value.Data (.integer n)
  | boolean {ref : Ref} (b : Bool) : Value.Data (.booleanAt ref b)
  | array {mark : Nat} {vs : List Value} : AllData vs → Value.Data (.array mark vs)
  | empty {mark : Nat} : Value.Data (.hash mark [])
  | pair {mark : Nat} {k : HashKey} {key v : Value} :
    key.isScalar → key.hashKey? = some k → Value.Data v → Value.Data (.hash mark [(k, key, v)])

inductive AllData : List Value → Prop
  | nil : AllData []
  | cons {v : Value} {vs : List Value} : Value.Data v → AllData vs → AllData (v :: vs)

end

mutual

/-- The values are built alike from the same integers and booleans, and the booleans of the first are the ones there
are. Only what arrays and hashes are known by may differ. -/
inductive Value.Copies : Value → Value → Prop
  | integer (n : Int64) : Value.Copies (.integer n) (.integer n)
  | boolean {ref : Ref} (b : Bool) : Value.Copies (.boolean b) (.booleanAt ref b)
  | array {mark mark' : Nat} {vs vs' : List Value} :
    AllCopy vs vs' → Value.Copies (.array mark vs) (.array mark' vs')
  | hash {mark mark' : Nat} {es es' : List (HashKey × Value × Value)} :
    EntriesCopy es es' → Value.Copies (.hash mark es) (.hash mark' es')

inductive AllCopy : List Value → List Value → Prop
  | nil : AllCopy [] []
  | cons {v v' : Value} {vs vs' : List Value} :
    Value.Copies v v' → AllCopy vs vs' → AllCopy (v :: vs) (v' :: vs')

inductive EntriesCopy : List (HashKey × Value × Value) → List (HashKey × Value × Value) → Prop
  | nil : EntriesCopy [] []
  | cons {k : HashKey} {key key' v v' : Value} {es es' : List (HashKey × Value × Value)} :
    Value.Copies key key' → Value.Copies v v' → EntriesCopy es es' →
    EntriesCopy ((k, key, v) :: es) ((k, key', v') :: es')

end

mutual

/-- Whether an integer occurs in a value, at any depth. -/
def Value.contains (n : Int64) : Value → Bool
  | .integer k => k = n
  | .array _ vs => anyContains n vs
  | .hash _ es => anyEntryContains n es
  | .returned v => v.contains n
  | _ => false

def anyContains (n : Int64) : List Value → Bool
  | [] => false
  | v :: vs => v.contains n || anyContains n vs

def anyEntryContains (n : Int64) : List (HashKey × Value × Value) → Bool
  | [] => false
  | (_, key, v) :: es => key.contains n || v.contains n || anyEntryContains n es

end

section copies

variable {names : String → Prop} {M : Matching names}

mutual

/-- What stands for a copy in another run is a copy. -/
theorem Value.Matches.copies {w' w v : Value} : w'.Matches M w → w.Copies v → w'.Copies v
  | .integer n, .integer _ => .integer n
  | .booleanAt b (.boolean _), .boolean _ => .boolean b
  | .array _ hws, .array hvs => .array (hws.copy hvs)
  | .hash _ hes, .hash hcopy => .hash (hes.copy hcopy)

theorem ValuesMatch.copy {ws' ws vs : List Value} : ValuesMatch M ws' ws → AllCopy ws vs → AllCopy ws' vs
  | .nil, .nil => .nil
  | .cons hw hws, .cons hv hvs => .cons (hw.copies hv) (hws.copy hvs)

theorem EntriesMatch.copy {fs' fs es : List (HashKey × Value × Value)} :
    EntriesMatch M fs' fs → EntriesCopy fs es → EntriesCopy fs' es
  | .nil, .nil => .nil
  | .cons hkey hw hfs, .cons hkey' hv hes => .cons (hkey.copies hkey') (hw.copies hv) (hfs.copy hes)

end

theorem Value.Copies.hashKey?_eq {w v : Value} (h : w.Copies v) : w.hashKey? = v.hashKey? := by
  cases h <;> rfl

theorem Value.Copies.isSignal_eq {w v : Value} (h : w.Copies v) : w.isSignal = false := by
  cases h <;> rfl

theorem Value.Copies.unwrapped_eq {w v : Value} (h : w.Copies v) : w.unwrapped = w := by
  cases h <;> rfl

end copies

namespace Parse

/-- No numeral among the tokens is too large. -/
def Fits (ts : List Token) : Prop :=
  ∀ t ∈ ts, t.kind = .int → Text.value t.text.toList ≤ maxNumeral

@[simp] theorem fits_nil : Fits [] :=
  fun _ h => nomatch h

@[simp] theorem fits_cons {t : Token} {ts : List Token} :
    Fits (t :: ts) ↔ (t.kind = .int → Text.value t.text.toList ≤ maxNumeral) ∧ Fits ts :=
  List.forall_mem_cons

@[simp] theorem fits_append {ts us : List Token} : Fits (ts ++ us) ↔ Fits ts ∧ Fits us :=
  List.forall_mem_append

theorem fits_bare {ts : List Token} : Fits (ts.map .bare) ↔ Fits ts :=
  List.forall_mem_map

theorem int_notMem_infixes (level : Level) : .int ∉ level.infixes := by
  cases level <;> decide

theorem Names.fits {ts : List Token} {names : List Ident} : Names ts names → Fits ts
  | .nil => fits_nil
  | .one ht => by simp [ht]
  | .cons ht hcomma hnames _ => by simp [ht, hcomma, hnames.fits]

mutual

/-- A numeral that is too large is no part of anything. -/
theorem Phrase.fits {level : Level} {ts : List Token} {e : Expr} : Phrase level ts e → Fits ts
  | .tighter h => h.fits
  | .binary hop hleft hright => by
    have hk := ne_of_mem_of_not_mem hop (int_notMem_infixes _)
    simp [hk, hleft.fits, hright.fits]
  | .unary hop hright => by
    have hk := ne_of_mem_of_not_mem (b := Kind.int) hop (by decide)
    simp [hk, hright.fits]
  | .call hcallee hopening hargs hclosing => by simp [hcallee.fits, hopening, hargs.fits, hclosing]
  | .index hleft hopening hindex hclosing => by simp [hleft.fits, hopening, hindex.fits, hclosing]
  | .primary h => h.fits

theorem Primary.fits {ts : List Token} {e : Expr} : Primary ts e → Fits ts
  | .ident hk | .string hk | .trueWord hk | .falseWord hk => by simp [hk]
  | .int _ hvalue => by simp [hvalue]
  | .group hopening h hclosing => by simp [hopening, h.fits, hclosing]
  | .cond hword hopening htest hclosing hyes => by simp [hword, hopening, htest.fits, hclosing, hyes.fits]
  | .condElse hword hopening htest hclosing hyes hother hno => by
    simp [hword, hopening, htest.fits, hclosing, hyes.fits, hother, hno.fits]
  | .function hword hopening hnames hclosing hbody => by
    simp [hword, hopening, hnames.fits, hclosing, hbody.fits]
  | .array hopening helements hclosing => by simp [hopening, helements.fits, hclosing]
  | .hash hopening hpairs hclosing => by simp [hopening, hpairs.fits, hclosing]

theorem Elements.fits {ts : List Token} {es : List Expr} : Elements ts es → Fits ts
  | .nil => fits_nil
  | .one h => h.fits
  | .cons h hcomma hes _ => by simp [h.fits, hcomma, hes.fits]

theorem Pairs.fits {ts : List Token} {pairs : List (Expr × Expr)} : Pairs ts pairs → Fits ts
  | .nil => fits_nil
  | .one hkey hcolon hvalue => by simp [hkey.fits, hcolon, hvalue.fits]
  | .cons hkey hcolon hvalue hcomma hpairs => by
    simp [hkey.fits, hcolon, hvalue.fits, hcomma, hpairs.fits]

theorem Braced.fits {ts : List Token} {stmts : List Stmt} : Braced ts stmts → Fits ts
  | .mk hopening hstmts hclosing => by simp [hopening, hstmts.fits, hclosing]

theorem Sentence.fits {ts : List Token} {s : Stmt} : Sentence ts s → Fits ts
  | .bind hword hname hassign hvalue => by simp [hword, hname, hassign, hvalue.fits]
  | .give hword hvalue => by simp [hword, hvalue.fits]
  | .expr hvalue => hvalue.fits

theorem Sentences.fits {ts : List Token} {stmts : List Stmt} : Sentences ts stmts → Fits ts
  | .nil => fits_nil
  | .ended hs hend hstmts => by simp [hs.fits, hend, hstmts.fits]
  | .bare hs _ hstmts => by simp [hs.fits, hstmts.fits]

end

/-- A text with a numeral that is too large is not read without an error. -/
theorem diagnostics_ne_nil_of_reads {source : String} {us : List Token} (h : Reads source.toList us)
    (hus : ¬ Fits us) : (parse source).diagnostics ≠ [] := by
  obtain ⟨ts, hitems, rfl⟩ := h .first
  intro hnone
  exact hus (fits_bare.2 (((parse_iff_sentences source ts hitems _).1.1 ⟨hnone, rfl⟩).fits))

end Parse

/-- Wherever the expression is evaluated, its value is a copy of this one. -/
def Expr.Gives (e : Expr) (v : Value) : Prop :=
  ∀ scope m, ∃ seen w m', Evaluates scope e m seen w m' ∧ w.Copies v

/-- The text that shows a value is scanned into these tokens, and they spell an expression that gives it. The
exception is a numeral that is too large, which is there if the least integer is. -/
structure Value.ShownBy (v : Value) (us : List Token) : Prop where
  reads : ∀ order cs vs, Stops cs → Reads cs vs → Reads ((v.display order).toList ++ cs) (us ++ vs)
  fits_iff : Fits us ↔ v.contains .minValue = false
  spells : Fits us → ∃ e, Phrase .unary us e ∧ e.Gives v

/-- The same for values between commas. -/
structure AllShownBy (vs : List Value) (us : List Token) : Prop where
  reads : ∀ order cs ws, Stops cs → Reads cs ws →
    Reads ((", ".intercalate (displayAll order vs)).toList ++ cs) (us ++ ws)
  fits_iff : Fits us ↔ anyContains .minValue vs = false
  spells : Fits us → ∃ es, Elements us es ∧
    ∀ scope m, ∃ seen ws m', ValuesOf scope es m seen ws m' ∧ AllCopy ws vs

namespace Value.ShownBy

theorem nonneg {n : Int64} (h : 0 ≤ n) : ShownBy (.integer n) [.synthetic .int (Text.decimal n.toInt)] := by
  have hspelled := Expr.SpelledBy.int h
  refine ⟨fun _ => hspelled.reads, ?_, fun _ => ?_⟩
  · have hfits := hspelled.phrase.fits
    have hne : n ≠ .minValue := by
      rintro rfl
      exact absurd h (by decide)
    simp [hfits, contains, hne]
  · exact ⟨_, hspelled.phrase.loosen (by decide), fun scope m => ⟨_, _, _, evaluates_int scope n m, .integer n⟩⟩

theorem neg {n : Int64} {k : Nat} (hn : n.toInt = -k) (hk : 0 < k) :
    ShownBy (.integer n) [Kind.minus.token, .synthetic .int (Text.decimal k)] := by
  have hfits : Fits [Kind.minus.token, .synthetic .int (Text.decimal k)] ↔ k ≤ maxNumeral := by
    simp [Token.synthetic, Text.value_decimal]
  refine ⟨fun order cs vs hcs hvs => ?_, ?_, fun hus => ?_⟩
  · have hreads := (hvs.number k hcs).mark '-' (by decide) rfl
    have hdisplay : ((integer n).display order).toList = '-' :: (Text.decimal k).toList := by
      rw [display, hn, Text.decimal, if_pos (by omega), Int.natAbs_neg, Int.natAbs_natCast, Text.decimal_natCast,
        String.toList_ofList, String.toList_ofList]
    rw [hdisplay]
    exact hreads
  · have hleast : n = .minValue ↔ n.toInt = -2 ^ 63 := Int64.toInt_inj.symm
    have hle := n.le_toInt
    rw [hfits, contains, decide_eq_false_iff_not, hleast, maxNumeral]
    omega
  · have hphrase : Phrase .unary [.synthetic .int (Text.decimal k)] (.int (.ofNat k)) :=
      (Phrase.primary (primary_decimal (hfits.1 hus))).loosen (by decide)
    have hnegate : (integer (.ofNat k)).unary Kind.minus.token = integer n := by
      rw [← Int64.ofInt_toInt n, hn, Int64.ofInt_neg, Int64.ofInt_eq_ofNat]
      rfl
    refine ⟨_, .unary (by decide) hphrase, fun scope m => ?_⟩
    have hevaluates := (evaluates_int scope (.ofNat k) m).unary rfl Kind.minus.token
    rw [hnegate] at hevaluates
    exact ⟨_, _, _, hevaluates, .integer n⟩

theorem boolean (ref : Ref) (b : Bool) :
    ShownBy (.booleanAt ref b) [if b then .synthetic .trueWord "true" else .synthetic .falseWord "false"] := by
  have hspelled := Expr.SpelledBy.bool b
  refine ⟨fun _ => hspelled.reads, ?_, fun _ => ?_⟩
  · simp [hspelled.phrase.fits, contains]
  · exact ⟨_, hspelled.phrase.loosen (by decide), fun scope m => ⟨_, _, _, evaluates_bool scope b m, .boolean b⟩⟩

theorem array {mark : Nat} {vs : List Value} {us : List Token} (h : AllShownBy vs us) :
    ShownBy (.array mark vs) (Kind.bracketL.token :: us ++ [Kind.bracketR.token]) where
  reads order cs ws hcs hws := by
    have hclose := hws.mark ']' (by decide) rfl
    have helements := h.reads order _ _ (stops_cons (by decide) cs) hclose
    have hopening := helements.mark '[' (by decide) rfl
    simpa [display] using hopening
  fits_iff := by
    simp [contains, h.fits_iff]
  spells hus := by
    obtain ⟨es, helements, hgive⟩ := h.spells (by simpa using hus)
    have hphrase : Phrase .call (Kind.bracketL.token :: us ++ [Kind.bracketR.token]) (.array es) :=
      .primary (.array rfl helements rfl)
    refine ⟨_, hphrase.loosen (by decide), fun scope m => ?_⟩
    obtain ⟨seen, ws, m', hvalues, hcopy⟩ := hgive scope m
    exact ⟨_, _, _, hvalues.evaluates, .array hcopy⟩

theorem empty (mark : Nat) : ShownBy (.hash mark []) [Kind.braceL.token, Kind.braceR.token] where
  reads order cs vs hcs hvs := by
    have hopening := (hvs.mark '\x7d' (by decide) rfl).mark '\x7b' (by decide) rfl
    simpa [display, displayEntries, Arrangement.arrange_of_length_le] using hopening
  fits_iff := by
    simp [contains, anyEntryContains]
  spells _ := by
    have hphrase : Phrase .call [Kind.braceL.token, Kind.braceR.token] (.hash []) :=
      .primary (@Primary.hash _ _ [] [] rfl .nil rfl)
    exact ⟨_, hphrase.loosen (by decide), fun scope m => ⟨_, _, _, PairsOf.nil.evaluates, .hash .nil⟩⟩

theorem pair {mark : Nat} {k : HashKey} {key v : Value} {us vs : List Token} (hhash : key.hashKey? = some k)
    (hkey : key.ShownBy us) (hv : v.ShownBy vs) :
    ShownBy (.hash mark [(k, key, v)])
      (Kind.braceL.token :: (us ++ Kind.colon.token :: vs) ++ [Kind.braceR.token]) where
  reads order cs ws hcs hws := by
    have hclose := hws.mark '\x7d' (by decide) rfl
    have hvalue := (hv.reads order _ _ (stops_cons (by decide) cs) hclose).blank (c := ' ') (by decide)
    have hcolon := hkey.reads order _ _ (stops_cons (by decide) _) (hvalue.mark ':' (by decide) rfl)
    have hopening := hcolon.mark '\x7b' (by decide) rfl
    simpa [display, displayEntries, Arrangement.arrange_of_length_le] using hopening
  fits_iff := by
    simp [contains, anyEntryContains, hkey.fits_iff, hv.fits_iff]
  spells hus := by
    have hfits : Fits us ∧ Fits vs := by simpa using hus
    obtain ⟨e, he, hgive⟩ := hkey.spells hfits.1
    obtain ⟨e', he', hgive'⟩ := hv.spells hfits.2
    have hpairs : Pairs (us ++ Kind.colon.token :: vs) [(e, e')] :=
      .one (he.loosen (by decide)) rfl (he'.loosen (by decide))
    have hphrase : Phrase .call (Kind.braceL.token :: (us ++ Kind.colon.token :: vs) ++ [Kind.braceR.token])
        (.hash [(e, e')]) := .primary (.hash rfl hpairs rfl)
    refine ⟨_, hphrase.loosen (by decide), fun scope m => ?_⟩
    obtain ⟨seen, key', m₁, hevaluates, hcopy⟩ := hgive scope m
    obtain ⟨seen', w, m₂, hevaluates', hcopy'⟩ := hgive' scope m₁
    have hhash' : key'.hashKey? = some k := hcopy.hashKey?_eq.trans hhash
    have hfound : PairsOf scope [(e, e')] m _ [(key', w)] m₂ :=
      .cons hevaluates (Option.isSome_of_eq_some hhash') hevaluates' hcopy'.isSignal_eq .nil
    have hentries : Entries.addAll [] [(key', w)] = [(k, key', w)] := by
      rw [Entries.addAll, hhash']
      rfl
    refine ⟨_, _, _, hfound.evaluates, ?_⟩
    rw [hentries]
    exact .hash (.cons hcopy hcopy' .nil)

end Value.ShownBy

namespace AllShownBy

theorem nil : AllShownBy [] [] where
  reads order cs ws hcs hws := by simpa [displayAll] using hws
  fits_iff := by simp [anyContains]
  spells _ := ⟨[], .nil, fun scope m => ⟨_, _, _, .nil, .nil⟩⟩

theorem one {v : Value} {us : List Token} (h : v.ShownBy us) : AllShownBy [v] us where
  reads order cs ws hcs hws := by simpa [displayAll] using h.reads order cs ws hcs hws
  fits_iff := by simp [anyContains, h.fits_iff]
  spells hus := by
    obtain ⟨e, he, hgive⟩ := h.spells hus
    refine ⟨[e], .one (he.loosen (by decide)), fun scope m => ?_⟩
    obtain ⟨seen, w, m', hevaluates, hcopy⟩ := hgive scope m
    exact ⟨_, _, _, .cons hevaluates hcopy.isSignal_eq .nil, .cons hcopy .nil⟩

theorem cons {v v' : Value} {vs : List Value} {us ws : List Token} (h : v.ShownBy us)
    (hvs : AllShownBy (v' :: vs) ws) : AllShownBy (v :: v' :: vs) (us ++ Kind.comma.token :: ws) where
  reads order cs xs hcs hxs := by
    have hrest := (hvs.reads order cs xs hcs hxs).comma
    have hfirst := h.reads order _ _ (stops_cons (by decide) _) hrest
    simpa [displayAll, String.intercalate_cons_cons] using hfirst
  fits_iff := by
    rw [anyContains, Bool.or_eq_false_iff, ← h.fits_iff, ← hvs.fits_iff]
    simp
  spells hus := by
    have hfits : Fits us ∧ Fits ws := by simpa using hus
    obtain ⟨e, he, hgive⟩ := h.spells hfits.1
    obtain ⟨es, hes, hgiveAll⟩ := hvs.spells hfits.2
    have hne : es ≠ [] := by
      rintro rfl
      obtain ⟨_, _, _, hvalues, hcopies⟩ := hgiveAll ⟨0⟩ (.new none)
      cases hvalues
      cases hcopies
    refine ⟨e :: es, .cons (he.loosen (by decide)) rfl hes hne, fun scope m => ?_⟩
    obtain ⟨seen, w, m₁, hevaluates, hcopy⟩ := hgive scope m
    obtain ⟨seen', ws', m₂, hvalues, hcopies⟩ := hgiveAll scope m₁
    exact ⟨_, _, _, .cons hevaluates hcopy.isSignal_eq hvalues, .cons hcopy hcopies⟩

end AllShownBy

theorem Value.shown_integer (n : Int64) : ∃ us, (Value.integer n).ShownBy us := by
  rcases lt_or_ge n.toInt 0 with h | h
  · exact ⟨_, .neg (k := n.toInt.natAbs) (by omega) (by omega)⟩
  · exact ⟨_, .nonneg (Int64.le_iff_toInt_le.2 h)⟩

theorem Value.shown_of_isScalar {v : Value} (h : v.isScalar) : ∃ us, v.ShownBy us := by
  cases v with
  | integer n => exact shown_integer n
  | booleanAt ref b => exact ⟨_, .boolean ref b⟩
  | _ => exact nomatch h

mutual

theorem Value.Data.shown {v : Value} : v.Data → ∃ us, v.ShownBy us
  | .integer n => Value.shown_integer n
  | .boolean b => ⟨_, .boolean _ b⟩
  | .array hvs => by
    obtain ⟨us, hus⟩ := hvs.shown
    exact ⟨_, .array hus⟩
  | .empty => ⟨_, .empty _⟩
  | .pair hscalar hhash hv => by
    obtain ⟨us, hus⟩ := Value.shown_of_isScalar hscalar
    obtain ⟨ws, hws⟩ := hv.shown
    exact ⟨_, .pair hhash hus hws⟩

theorem AllData.shown {vs : List Value} : AllData vs → ∃ us, AllShownBy vs us
  | .nil => ⟨_, .nil⟩
  | .cons hv .nil => by
    obtain ⟨us, hus⟩ := hv.shown
    exact ⟨_, .one hus⟩
  | .cons hv (.cons hv' hvs) => by
    obtain ⟨us, hus⟩ := hv.shown
    obtain ⟨ws, hws⟩ := (AllData.cons hv' hvs).shown
    exact ⟨_, .cons hus hws⟩

end

/-- With enough depth, a program that is one expression has the value of it, and so has each program that is the same
up to places. -/
theorem Expr.Gives.runs {e : Expr} {v : Value} (h : e.Gives v) {stmts : List Stmt}
    (hstmts : bareStmts stmts = [.expr e]) (m : Machine) :
    ∃ least, ∀ depth, least ≤ depth → ∃ w m', runProgram depth stmts m = some (w, m') ∧ w.Copies v := by
  obtain ⟨seen, w, m₁, hevaluates, hcopy⟩ := h m.store.newGlobal.1 { m with store := m.store.newGlobal.2 }
  obtain ⟨least, hends⟩ := hevaluates.ends
  refine ⟨least, fun depth hdepth => ?_⟩
  have heval : eval depth m.store.newGlobal.1 e { m with store := m.store.newGlobal.2 } = some (w, m₁) := by
    rw [← Traced.action_eval]
    exact congrArg Prod.snd (hends depth hdepth)
  have hbare : runProgram depth [.expr e] m = some (w, m₁) := by
    refine Action.bind_eq_some.2 ⟨_, _, rfl, Action.bind_eq_some.2 ⟨w, m₁, ?_, ?_⟩⟩
    · refine Action.bind_eq_some.2 ⟨w, m₁, heval, ?_⟩
      rw [hcopy.isSignal_eq]
      rfl
    · rw [hcopy.unwrapped_eq]
      rfl
  have hsame := matches_alone depth stmts _ _ _ (.refl _) (Machine.matches_empty _ (Eq.refl m.sink.left))
  rw [← Traced.action_alone] at hbare ⊢
  unfold Traced.action at hbare ⊢
  rw [hstmts] at hsame
  generalize Eval.alone (Traced.eval depth) stmts m = r, Eval.alone (Traced.eval depth) [.expr e] m = r'
    at hsame hbare ⊢
  cases hsame with
  | neither => exact nomatch hbare
  | both _ hw =>
    cases hbare
    exact ⟨_, _, rfl, hw.copies hcopy⟩

/-- The text that shows what is built from integers, booleans, arrays and small hashes is a program with that value,
unless the least integer is in it. That one has no numeral, and its text is not read. -/
theorem display_reads_back {v : Value} (hv : v.Data) (order : Arrangement) (m : Machine) :
    (v.contains .minValue = false → ∃ least, ∀ depth, least ≤ depth →
      ∃ w m', runSource depth (v.display order) m = some (.ok w, m') ∧ w.Copies v) ∧
    (v.contains .minValue → ∃ ds, ds ≠ [] ∧
      ∀ depth, runSource depth (v.display order) m = some (.error ds, m)) := by
  obtain ⟨us, hus⟩ := hv.shown
  have hreads := hus.reads order [] [] stops_nil reads_nil
  rw [List.append_nil, List.append_nil] at hreads
  refine ⟨fun hfits => ?_, fun hleast => ?_⟩
  · obtain ⟨e, he, hgive⟩ := hus.spells (hus.fits_iff.2 hfits)
    have hsentences : Sentences us [.expr e] := by
      simpa using Sentences.bare (.expr (he.loosen (by decide))) (by decide) .nil
    obtain ⟨hdiagnostics, hprogram⟩ := parse_of_reads hreads hsentences
    obtain ⟨least, hruns⟩ := hgive.runs hprogram m
    refine ⟨least, fun depth hdepth => ?_⟩
    obtain ⟨w, m', hrun, hcopy⟩ := hruns depth hdepth
    refine ⟨w, m', ?_, hcopy⟩
    rw [runSource_eq, if_pos hdiagnostics, hrun]
    rfl
  · have hne := diagnostics_ne_nil_of_reads hreads (by simp [hus.fits_iff, hleast])
    refine ⟨_, hne, fun depth => ?_⟩
    rw [runSource_eq, if_neg hne]

/-- An array in a hash in an array, which has the same mark as the array in it, and the least integer in a hash. -/
theorem display_reads_back_of_nested :
    let m := Machine.new none
    let v : Value :=
      .array 7 [.integer (-5), .hash 3 [(.ofBoolean true, .boolean true, .array 7 [.integer 0])]]
    let least : Value := .hash 0 [(.ofInteger 1, .integer 1, .array 0 [.integer .minValue])]
    v.Data ∧ v.display .sorted = "[-5, \x7btrue: [0]\x7d]" ∧
      (∃ n, ∀ depth, n ≤ depth → ∃ w m', runSource depth (v.display .sorted) m = some (.ok w, m') ∧ w.Copies v) ∧
      least.Data ∧ least.display .sorted = "\x7b1: [-9223372036854775808]\x7d" ∧
      ∃ ds, ds ≠ [] ∧ ∀ depth, runSource depth (least.display .sorted) m = some (.error ds, m) := by
  intro m v least
  have hv : v.Data :=
    .array (.cons (.integer _) (.cons (.pair rfl rfl (.array (.cons (.integer _) .nil))) .nil))
  have hleast : least.Data := .pair rfl rfl (.array (.cons (.integer _) .nil))
  exact ⟨hv, by cbv, (display_reads_back hv .sorted m).1 (by decide), hleast, by cbv,
    (display_reads_back hleast .sorted m).2 (by decide)⟩

end Monkey
