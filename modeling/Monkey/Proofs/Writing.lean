import Monkey.Proofs.Partition

namespace Monkey

namespace Kind

/-- The one spelling that all tokens of the kind have, if there is one. -/
def spelling? : Kind → Option String
  | parenL => some "("
  | parenR => some ")"
  | braceL => some "\x7b"
  | braceR => some "\x7d"
  | bracketL => some "["
  | bracketR => some "]"
  | comma => some ","
  | semicolon => some ";"
  | colon => some ":"
  | assign => some "="
  | equal => some "=="
  | bang => some "!"
  | notEqual => some "!="
  | greater => some ">"
  | less => some "<"
  | plus => some "+"
  | minus => some "-"
  | star => some "*"
  | slash => some "/"
  | letWord => some "let"
  | fnWord => some "fn"
  | ifWord => some "if"
  | elseWord => some "else"
  | returnWord => some "return"
  | trueWord => some "true"
  | falseWord => some "false"
  | none | ident | int | string | eof => Option.none

/-- Identifiers and keywords. -/
def words : List Kind :=
  [ident, letWord, fnWord, ifWord, elseWord, returnWord, trueWord, falseWord]

/-- Two tokens of these kinds are still two when nothing stands between them. -/
def mayTouch (a b : Kind) : Prop :=
  ¬ (a ∈ words ∧ (b ∈ words ∨ b = int)) ∧ ¬ (a = int ∧ b = int) ∧
    ¬ (a ∈ [assign, bang] ∧ b ∈ [assign, equal]) ∧ ¬ (a = slash ∧ b ∈ [slash, star])

instance (a b : Kind) : Decidable (a.mayTouch b) :=
  inferInstanceAs (Decidable (_ ∧ _))

/-- A token of the kind does not go on with the character. -/
def endsAt (k : Kind) (c : Char) : Bool :=
  if k ∈ words then !Text.isWordChar c
  else match k with
    | int => !Text.isDigit c
    | assign | bang => c ≠ '='
    | slash => c ≠ '/' && c ≠ '*'
    | _ => true

end Kind

namespace Token

/-- The text is one that a token of the kind can have. -/
def IsWritable (t : Token) : Prop :=
  match t.kind with
  | .ident => Text.isWord t.text.toList ∧ ∀ k : Kind, k.spelling? ≠ some t.text
  | .int => t.text.toList ≠ [] ∧ ∀ c ∈ t.text.toList, Text.isDigit c
  | .string => '"' ∉ t.text.toList
  | k => k.spelling? = some t.text

/-- A string stands between quotes, every other token is its text. -/
def written (t : Token) : List Char :=
  if t.kind = .string then '"' :: t.text.toList ++ ['"'] else t.text.toList

end Token

/-- Blanks and comments, each of which is over. -/
inductive Spacing : List Char → Prop
  | nil : Spacing []
  | blank {c : Char} {cs : List Char} : Text.isBlank c → Spacing cs → Spacing (c :: cs)
  | line {body cs : List Char} :
    '\n' ∉ body → Spacing cs → Spacing ('/' :: '/' :: (body ++ '\n' :: cs))
  | block {body cs : List Char} :
    Leaves 1 body → Spacing cs → Spacing ('/' :: '*' :: (body ++ cs))

/-- What may stand between two tokens: spacing that begins with a blank, or nothing if they may touch. -/
def Separates (a b : Kind) (sep : List Char) : Prop :=
  (∃ c ∈ sep.head?, Text.isBlank c) ∧ Spacing sep ∨ sep = [] ∧ a.mayTouch b

/-- The text is made of these tokens with separators between them. -/
inductive Written : List Char → List Token → Prop
  | nil : Written [] []
  | one {t : Token} : t.IsWritable → Written t.written [t]
  | cons {t u : Token} {sep cs : List Char} {us : List Token} :
    t.IsWritable → Separates t.kind u.kind sep → Written cs (u :: us) →
    Written (t.written ++ (sep ++ cs)) (t :: u :: us)

section spacing

variable {n : Nat} {c : Char} {body : List Char}

theorem Leaves.of_opening (h : Leaves n ('/' :: '*' :: body)) : Leaves (n + 1) body := by
  obtain ⟨hout, hinside⟩ := h
  rw [nesting_opening] at hout
  have hbody : body ≠ [] := by
    rintro rfl
    rw [nesting_nil] at hout
    omega
  rw [List.dropLast_cons_of_ne_nil (List.cons_ne_nil _ _), List.dropLast_cons_of_ne_nil hbody] at hinside
  refine ⟨by omega, fun part hpart => ?_⟩
  have hdeeper := hinside ('/' :: '*' :: part) (List.prefix_cons_inj _ |>.2 (List.prefix_cons_inj _ |>.2 hpart))
  rw [nesting_opening] at hdeeper
  omega

/-- A closing mark ends the text or leaves it inside a comment. -/
theorem Leaves.of_closing (h : Leaves (n + 1) ('*' :: '/' :: body)) :
    n = 0 ∧ body = [] ∨ 0 < n ∧ Leaves n body := by
  obtain ⟨hout, hinside⟩ := h
  rw [nesting_closing] at hout
  by_cases hbody : body = []
  · rw [hbody, nesting_nil] at hout
    exact .inl ⟨by omega, hbody⟩
  · rw [List.dropLast_cons_of_ne_nil (List.cons_ne_nil _ _), List.dropLast_cons_of_ne_nil hbody] at hinside
    have hmark (part : List Char) (hpart : part <+: body.dropLast) : 0 < nesting part + n := by
      have hpart := hinside ('*' :: '/' :: part)
        (List.prefix_cons_inj _ |>.2 (List.prefix_cons_inj _ |>.2 hpart))
      rw [nesting_closing] at hpart
      omega
    have hfirst := hmark [] List.nil_prefix
    rw [nesting_nil] at hfirst
    exact .inr ⟨by omega, by omega, hmark⟩

theorem Leaves.of_char (h : Leaves (n + 1) (c :: body)) (hc : Unmarked c body) : Leaves (n + 1) body := by
  obtain ⟨hout, hinside⟩ := h
  rw [nesting_of_unmarked hc] at hout
  have hbody : body ≠ [] := by
    rintro rfl
    rw [nesting_nil] at hout
    omega
  rw [List.dropLast_cons_of_ne_nil hbody] at hinside
  refine ⟨hout, fun part hpart => ?_⟩
  have hpart' := hinside (c :: part) (List.prefix_cons_inj _ |>.2 hpart)
  rwa [nesting_of_unmarked (hc.of_prefix (hpart.trans (List.dropLast_prefix body)))] at hpart'

namespace Gap

theorem skip_line (hbody : '\n' ∉ body) (cs : List Char) (p : Position) :
    skip .line (body ++ '\n' :: cs) p = skip .blank cs (p.afterAll (body ++ ['\n'])) := by
  induction body generalizing p with
  | nil => rfl
  | cons c body ih =>
    rw [List.mem_cons, not_or] at hbody
    rw [List.cons_append, skip, if_neg (Ne.symm hbody.1)]
    exact ih hbody.2 _

theorem skip_char {rest : List Char} (hc : Unmarked c rest) (p : Position) :
    skip (.block n) (c :: rest) p = skip (.block n) rest (p.after c) := by
  rw [skip]
  · rintro tail rfl rfl
    exact hc.1 rfl rfl
  · rintro tail - rfl rfl
    exact hc.2 rfl rfl
  · rintro m tail - rfl rfl
    exact hc.2 rfl rfl

/-- A block comment is over where its marks balance. -/
theorem skip_block (n : Nat) (body : List Char) (h : Leaves (n + 1) body) (cs : List Char) (p : Position) :
    skip (.block n) (body ++ cs) p = skip .blank cs (p.afterAll body) := by
  cases hbody : body with
  | nil => exact absurd hbody (h.ne_nil n.succ_pos)
  | cons c rest =>
    rw [hbody] at h
    by_cases hopening : c = '/' ∧ rest.head? = some '*'
    · obtain ⟨rfl, hhead⟩ := hopening
      obtain ⟨inner, rfl⟩ := List.head?_eq_some_iff.1 hhead
      exact skip_block (n + 1) inner h.of_opening cs _
    by_cases hclosing : c = '*' ∧ rest.head? = some '/'
    · obtain ⟨rfl, hhead⟩ := hclosing
      obtain ⟨inner, rfl⟩ := List.head?_eq_some_iff.1 hhead
      rcases h.of_closing with ⟨rfl, rfl⟩ | ⟨hn, h⟩
      · rfl
      · obtain ⟨n, rfl⟩ := Nat.exists_eq_succ_of_ne_zero (Nat.ne_of_gt hn)
        exact skip_block n inner h cs _
    · have hc : Unmarked c rest := ⟨fun hc hd => hopening ⟨hc, hd⟩, fun hc hd => hclosing ⟨hc, hd⟩⟩
      have hrest := h.of_char hc
      have hc' : Unmarked c (rest ++ cs) := by
        obtain ⟨d, tail, rfl⟩ := List.exists_cons_of_ne_nil (hrest.ne_nil n.succ_pos)
        exact hc
      rw [List.cons_append, skip_char hc']
      exact skip_block n rest hrest cs _
termination_by body.length
decreasing_by all_goals (subst_vars; simp only [List.length_cons]; omega)

end Gap

theorem Spacing.skip {sep : List Char} (h : Spacing sep) (cs : List Char) (p : Position) :
    Gap.skip .blank (sep ++ cs) p = Gap.skip .blank cs (p.afterAll sep) := by
  induction h generalizing p with
  | nil => rfl
  | blank hc _ ih =>
    rw [List.cons_append, Gap.skip_of_blank hc]
    exact ih _
  | @line body sep hbody _ ih =>
    have hline := Gap.skip_line hbody (sep ++ cs) ((p.after '/').after '/')
    rw [ih, ← Position.afterAll_append, List.append_assoc] at hline
    rw [List.cons_append, List.cons_append, List.append_assoc]
    exact hline
  | @block body sep hbody _ ih =>
    have hblock := Gap.skip_block 0 body hbody (sep ++ cs) ((p.after '/').after '*')
    rw [ih, ← Position.afterAll_append] at hblock
    rw [List.cons_append, List.cons_append, List.append_assoc]
    exact hblock

/-- In front of a token every comment is over. -/
theorem Fills.spacing {gap rest : List Char} (h : Fills gap rest) (hrest : rest ≠ []) : Spacing gap := by
  induction h with
  | nil => exact .nil
  | blank hc _ ih => exact .blank hc (ih hrest)
  | line hbody _ ih => exact .line hbody (ih hrest)
  | block hbody _ ih => exact .block hbody (ih hrest)
  | lastLine | lastBlock => exact absurd rfl hrest

end spacing

section spellings

namespace Kind

/-- A spelling is that of a mark of one character, of one of the two operators with two, or of a keyword. -/
theorem spelling_cases {k : Kind} {text : String} (h : k.spelling? = some text) :
    (∃ c, text.toList = [c] ∧ symbols.lookup c = some k) ∨
      (∃ c, text.toList = [c, '='] ∧ (c = '=' ∧ k = equal ∨ c = '!' ∧ k = notEqual)) ∨
      (text.toList, k) ∈ keywords := by
  cases k with
  | none | ident | int | string | eof => cases h
  | equal =>
    cases h
    exact .inr (.inl ⟨_, rfl, .inl ⟨rfl, rfl⟩⟩)
  | notEqual =>
    cases h
    exact .inr (.inl ⟨_, rfl, .inr ⟨rfl, rfl⟩⟩)
  | letWord | fnWord | ifWord | elseWord | returnWord | trueWord | falseWord =>
    cases h
    exact .inr (.inr (by decide))
  | _ =>
    cases h
    exact .inl ⟨_, rfl, rfl⟩

theorem spelling_of_mem_symbols : ∀ p ∈ symbols, p.2.spelling? = some (String.ofList [p.1]) := by
  decide

theorem spelling_of_mem_keywords :
    ∀ p ∈ keywords, p.2.spelling? = some (String.ofList p.1) ∧ p.2 ∈ words := by
  decide

theorem ofWord_of_mem_keywords : ∀ p ∈ keywords, ofWord p.1 = p.2 ∧ p.2 ≠ ident := by
  decide

/-- A word is no keyword or the spelling of one. -/
theorem ofWord_cases {w : List Char} (hw : Text.isWord w) :
    (ofWord w = ident ∧ ∀ k : Kind, k.spelling? ≠ some (String.ofList w)) ∨ (w, ofWord w) ∈ keywords := by
  have hletter {c : Char} {more : List Char} (hc : w = c :: more) : Text.isLetter c := by
    rw [hc, Text.isWord, Bool.and_eq_true] at hw
    exact hw.1
  cases hlookup : keywords.lookup w with
  | none =>
    have hident : ofWord w = ident := by rw [ofWord, hlookup]; rfl
    refine .inl ⟨hident, fun k hk => ?_⟩
    have hcases := spelling_cases hk
    rw [String.toList_ofList] at hcases
    rcases hcases with ⟨c, hc, hsymbol⟩ | ⟨c, hc, ⟨rfl, -⟩ | ⟨rfl, -⟩⟩ | hmem
    · have hspec := (symbols_spec _ (mem_symbols hsymbol)).2.2.2.1
      exact absurd (hletter hc) (by rw [hspec]; decide)
    · exact absurd (hletter hc) (by decide)
    · exact absurd (hletter hc) (by decide)
    · obtain ⟨hof, hne⟩ := ofWord_of_mem_keywords _ hmem
      exact hne (hof.symm.trans hident)
  | some k =>
    obtain ⟨before, after, hkeywords, -⟩ := List.lookup_eq_some_iff.1 hlookup
    have hmem : (w, k) ∈ keywords := by rw [hkeywords]; simp
    rw [(ofWord_of_mem_keywords _ hmem).1]
    exact .inr hmem

theorem ofWord_eq_ident {w : List Char} (hw : Text.isWord w)
    (h : ∀ k : Kind, k.spelling? ≠ some (String.ofList w)) : ofWord w = ident := by
  rcases ofWord_cases hw with ⟨hident, -⟩ | hmem
  · exact hident
  · exact absurd (spelling_of_mem_keywords _ hmem).1 (h _)

theorem endsAt_word {k : Kind} (hk : k ∈ words) {c : Char} : k.endsAt c ↔ Text.isWordChar c = false := by
  unfold endsAt
  rw [if_pos hk, Bool.not_eq_true']

/-- After a mark of one character nothing comes that makes another mark or a comment of it. -/
theorem endsAt_symbol {c d : Char} {k : Kind} (hk : symbols.lookup c = some k) :
    k.endsAt d ↔ (c ∈ ['=', '!'] → d ≠ '=') ∧ (c = '/' → d ≠ '/' ∧ d ≠ '*') := by
  have hmem := mem_symbols hk
  simp only [symbols, List.mem_cons, Prod.mk.injEq, List.not_mem_nil, or_false] at hmem
  rcases hmem with h | h | h | h | h | h | h | h | h | h | h | h | h | h | h | h | h
  all_goals
    obtain ⟨rfl, rfl⟩ := h
    simp [endsAt, words]

end Kind

theorem Token.isWritable_iff (t : Token) :
    t.IsWritable ↔
      (t.kind = .ident ∧ Text.isWord t.text.toList ∧ ∀ k : Kind, k.spelling? ≠ some t.text) ∨
      (t.kind = .int ∧ t.text.toList ≠ [] ∧ ∀ c ∈ t.text.toList, Text.isDigit c) ∨
      (t.kind = .string ∧ '"' ∉ t.text.toList) ∨ t.kind.spelling? = some t.text := by
  obtain ⟨kind, text, start, stop⟩ := t
  cases kind <;> simp [IsWritable, Kind.spelling?]

theorem Token.written_of_spelling {k : Kind} {text : String} (h : k.spelling? = some text)
    (start stop : Position) : (⟨k, text, start, stop⟩ : Token).written = text.toList := by
  refine if_neg fun hstring => ?_
  dsimp only at hstring
  rw [hstring] at h
  exact nomatch h

theorem Written.front {cs : List Char} {u : Token} {us : List Token} (h : Written cs (u :: us)) :
    ∃ more, u.IsWritable ∧ cs = u.written ++ more := by
  cases h with
  | one hu => exact ⟨[], hu, (List.append_nil _).symm⟩
  | cons hu => exact ⟨_, hu, rfl⟩

end spellings

section reading

theorem Lexeme.read_quoted {text : List Char} (h : '"' ∉ text) (rest : List Char) :
    read '"' (text ++ '"' :: rest) = (token .string text, text.length + 1) := by
  have hbody : (text ++ '"' :: rest).takeWhile (· ≠ '"') = text := by
    refine takeWhile_append_eq (fun c hc => ?_) (fun c hc => ?_)
    · rw [decide_eq_true_iff]
      rintro rfl
      exact h hc
    · rw [← Option.some_inj.1 hc]
      rfl
  unfold read
  rw [if_pos rfl]
  dsimp only
  rw [hbody, if_pos (by simp)]

/-- These characters are read as this kind and text, and neither blanks nor a comment begin with them. -/
structure Lexeme.ReadsBack (k : Kind) (text : List Char) (ch : Char) (more rest : List Char) : Prop where
  isBlank_eq : Text.isBlank ch = false
  unmarked : ch = '/' → (more ++ rest).head? ≠ some '/' ∧ (more ++ rest).head? ≠ some '*'
  read_eq : read ch (more ++ rest) = (token k text, more.length)

namespace Lexeme

theorem readsBack_word {w rest : List Char} (hw : Text.isWord w)
    (hrest : ∀ c ∈ rest.head?, Text.isWordChar c = false) :
    ∃ ch more, w = ch :: more ∧ ReadsBack (.ofWord w) w ch more rest := by
  cases w with
  | nil => exact nomatch hw
  | cons ch more =>
    rw [Text.isWord, Bool.and_eq_true, List.all_eq_true] at hw
    refine ⟨ch, more, rfl, Text.isBlank_of_isWordChar ?_, ?_, read_word hw.1 hw.2 hrest⟩
    · rw [Text.isWordChar, hw.1, Bool.true_or]
    · rintro rfl
      exact absurd hw.1 (by decide)

theorem readsBack_numeral {ch : Char} {more rest : List Char} (h : ∀ c ∈ ch :: more, Text.isDigit c)
    (hrest : ∀ c ∈ rest.head?, Text.isDigit c = false) : ReadsBack .int (ch :: more) ch more rest := by
  rw [List.forall_mem_cons] at h
  refine ⟨Text.isBlank_of_isWordChar ?_, ?_, read_numeral h.1 h.2 hrest⟩
  · rw [Text.isWordChar, h.1, Bool.or_true]
  · rintro rfl
    exact absurd h.1 (by decide)

theorem readsBack_string {text : List Char} (h : '"' ∉ text) (rest : List Char) :
    ReadsBack .string text '"' (text ++ ['"']) rest := by
  refine ⟨by decide, fun hslash => absurd hslash (by decide), ?_⟩
  rw [List.append_assoc, List.length_append]
  exact read_quoted h rest

/-- A mark of one character is read alone, as nothing comes that goes on with it. -/
theorem readsBack_symbol {ch : Char} {k : Kind} {rest : List Char} (h : Kind.symbols.lookup ch = some k)
    (hrest : ∀ c ∈ rest.head?, k.endsAt c) : ReadsBack k [ch] ch [] rest := by
  have hends (d : Char) (hd : d ∈ rest.head?) := (Kind.endsAt_symbol h).1 (hrest d hd)
  refine ⟨(Kind.symbols_spec _ (Kind.mem_symbols h)).1, fun hslash => ⟨fun hd => ?_, fun hd => ?_⟩, ?_⟩
  · exact ((hends _ hd).2 hslash).1 rfl
  · exact ((hends _ hd).2 hslash).2 rfl
  · exact read_symbol h fun hch hd => (hends _ hd).1 hch rfl

theorem readsBack_spelling {k : Kind} {text : String} {rest : List Char} (h : k.spelling? = some text)
    (hrest : ∀ c ∈ rest.head?, k.endsAt c) :
    ∃ ch more, text.toList = ch :: more ∧ ReadsBack k text.toList ch more rest := by
  rcases Kind.spelling_cases h with ⟨ch, htext, hsymbol⟩ | ⟨ch, htext, hdouble⟩ | hmem
  · rw [htext]
    exact ⟨ch, [], rfl, readsBack_symbol hsymbol hrest⟩
  · rw [htext]
    rcases hdouble with ⟨rfl, rfl⟩ | ⟨rfl, rfl⟩
    all_goals exact ⟨_, ['='], rfl, by decide, fun hslash => absurd hslash (by decide), rfl⟩
  · obtain ⟨hword, hkind⟩ := Kind.keywords_spec _ hmem
    have hwords := (Kind.spelling_of_mem_keywords _ hmem).2
    have hread := readsBack_word hword fun c hc => (Kind.endsAt_word hwords).1 (hrest c hc)
    rwa [hkind] at hread

end Lexeme

/-- In front of a character that it does not go on with, a token is read as it was written. -/
theorem Token.IsWritable.read {t : Token} (ht : t.IsWritable) {rest : List Char}
    (hrest : ∀ c ∈ rest.head?, t.kind.endsAt c) :
    ∃ ch more, t.written = ch :: more ∧ Lexeme.ReadsBack t.kind t.text.toList ch more rest := by
  obtain ⟨kind, text, start, stop⟩ := t
  rcases (Token.isWritable_iff _).1 ht with ⟨hkind, hw, hnone⟩ | ⟨hkind, hne, hall⟩ | ⟨hkind, hquote⟩ | hspelled
  · dsimp only at hkind hw hnone
    subst hkind
    have hident : Kind.ident ∈ Kind.words := by decide
    have hword := Lexeme.readsBack_word hw fun c hc => (Kind.endsAt_word hident).1 (hrest c hc)
    rwa [Kind.ofWord_eq_ident hw (by rwa [String.ofList_toList])] at hword
  · dsimp only at hkind hne hall
    subst hkind
    obtain ⟨ch, more, htext⟩ := List.exists_cons_of_ne_nil hne
    dsimp only
    rw [htext] at hall ⊢
    have hdigit (c : Char) (hc : c ∈ rest.head?) : Text.isDigit c = false := by
      simpa [Kind.endsAt, Kind.words] using hrest c hc
    exact ⟨ch, more, htext, Lexeme.readsBack_numeral hall hdigit⟩
  · dsimp only at hkind hquote
    subst hkind
    exact ⟨'"', text.toList ++ ['"'], rfl, Lexeme.readsBack_string hquote rest⟩
  · rw [Token.written_of_spelling hspelled]
    exact Lexeme.readsBack_spelling hspelled hrest

/-- Tokens of this kind and text are writable and written like this, and they do not go on with what comes next. -/
structure Lexeme.Stands (k : Kind) (text written rest : List Char) : Prop where
  isWritable : ∀ start stop, (⟨k, String.ofList text, start, stop⟩ : Token).IsWritable
  written_eq : ∀ start stop, (⟨k, String.ofList text, start, stop⟩ : Token).written = written
  endsAt : ∀ c ∈ rest.head?, k.endsAt c

namespace Lexeme

theorem stands_string {body : List Char} (h : '"' ∉ body) (rest : List Char) :
    Stands .string body ('"' :: body ++ ['"']) rest where
  isWritable _ _ := by
    rw [← String.toList_ofList (l := body)] at h
    exact h
  written_eq _ _ := by simp [Token.written]
  endsAt _ _ := rfl

theorem stands_numeral {ch : Char} {more rest : List Char} (h : ∀ c ∈ ch :: more, Text.isDigit c)
    (hrest : ∀ c ∈ rest.head?, Text.isDigit c = false) : Stands .int (ch :: more) (ch :: more) rest where
  isWritable _ _ := by
    rw [← String.toList_ofList (l := ch :: more)] at h
    exact ⟨by simp, h⟩
  written_eq _ _ := by simp [Token.written]
  endsAt c hc := by simp [Kind.endsAt, Kind.words, hrest c hc]

theorem stands_spelling {k : Kind} {text rest : List Char} (h : k.spelling? = some (String.ofList text))
    (hrest : ∀ c ∈ rest.head?, k.endsAt c) : Stands k text text rest where
  isWritable _ _ := (Token.isWritable_iff _).2 (.inr (.inr (.inr h)))
  written_eq start stop := by rw [Token.written_of_spelling h, String.toList_ofList]
  endsAt := hrest

theorem stands_word {w rest : List Char} (hw : Text.isWord w) (hrest : ∀ c ∈ rest.head?, Text.isWordChar c = false) :
    Stands (.ofWord w) w w rest := by
  rcases Kind.ofWord_cases hw with ⟨hident, hnone⟩ | hmem
  · rw [hident]
    refine ⟨fun _ _ => ?_, fun _ _ => ?_, fun c hc => (Kind.endsAt_word (by decide)).2 (hrest c hc)⟩
    · rw [← String.toList_ofList (l := w)] at hw
      exact ⟨hw, hnone⟩
    · simp [Token.written]
  · obtain ⟨hspelled, hwords⟩ := Kind.spelling_of_mem_keywords _ hmem
    exact stands_spelling hspelled fun c hc => (Kind.endsAt_word hwords).2 (hrest c hc)

/-- A mark is not taken apart, and none begins a comment. -/
theorem stands_symbol {ch : Char} {cs : List Char} {k : Kind} {n : Nat} (h : Kind.ofSymbol? ch cs = some (k, n))
    (hslash : ch = '/' → cs.head? ≠ some '/' ∧ cs.head? ≠ some '*') :
    Stands k (ch :: cs.take n) (ch :: cs.take n) (cs.drop n) := by
  rw [Kind.ofSymbol?] at h
  split at h
  · next hdouble =>
    obtain ⟨hhead, rfl⟩ := hdouble
    obtain ⟨tail, rfl⟩ := List.head?_eq_some_iff.1 hhead
    cases h
    exact stands_spelling rfl fun _ _ => rfl
  next hequal =>
  split at h
  · next hdouble =>
    obtain ⟨hhead, rfl⟩ := hdouble
    obtain ⟨tail, rfl⟩ := List.head?_eq_some_iff.1 hhead
    cases h
    exact stands_spelling rfl fun _ _ => rfl
  next hnotEqual =>
  obtain ⟨k', hk, hpair⟩ := Option.map_eq_some_iff.1 h
  cases hpair
  refine stands_spelling (Kind.spelling_of_mem_symbols _ (Kind.mem_symbols hk)) fun d hd => ?_
  rw [List.drop_zero] at hd
  refine (Kind.endsAt_symbol hk).2 ⟨fun hc hd' => ?_, fun hc => ⟨fun hd' => ?_, fun hd' => ?_⟩⟩
  · subst hd'
    rcases List.mem_cons.1 hc with hc | hc
    · exact hequal ⟨hd, hc⟩
    · exact hnotEqual ⟨hd, List.mem_singleton.1 hc⟩
  · exact (hslash hc).1 (hd' ▸ hd)
  · exact (hslash hc).2 (hd' ▸ hd)

/-- What is read has the text of a token, and it has not ended too early. -/
theorem stands_of_read {ch : Char} {cs text : List Char} {k : Kind} {n : Nat}
    (h : read ch cs = (token k text, n)) (hslash : ch = '/' → cs.head? ≠ some '/' ∧ cs.head? ≠ some '*') :
    Stands k text (ch :: cs.take n) (cs.drop n) := by
  rw [read] at h
  split at h
  · next hquote =>
    subst hquote
    obtain ⟨body, rest, rfl, hbody, hinside, hrest⟩ := exists_takeWhile (· ≠ '"') cs
    dsimp only at h
    rw [hbody] at h
    cases rest with
    | nil =>
      rw [if_neg (by simp)] at h
      cases h
    | cons c after =>
      rw [if_pos (by simp)] at h
      cases h
      obtain rfl : c = '"' := by simpa using hrest c rfl
      rw [List.take_length_add_append]
      exact stands_string (fun hmem => by simpa using hinside _ hmem) _
  split at h
  · next hdigit =>
    obtain ⟨more, rest, rfl, hmore, hall, hrest⟩ := exists_takeWhile Text.isDigit cs
    dsimp only at h
    rw [hmore] at h
    cases h
    rw [List.take_left, List.drop_left]
    exact stands_numeral (List.forall_mem_cons.2 ⟨hdigit, hall⟩) hrest
  split at h
  · next hletter =>
    obtain ⟨more, rest, rfl, hmore, hall, hrest⟩ := exists_takeWhile Text.isWordChar cs
    dsimp only at h
    rw [hmore] at h
    cases h
    rw [List.take_left, List.drop_left]
    refine stands_word ?_ hrest
    rw [Text.isWord, Bool.and_eq_true, List.all_eq_true]
    exact ⟨hletter, hall⟩
  split at h
  · next kind m hsymbol =>
    cases h
    exact stands_symbol hsymbol hslash
  · cases h

end Lexeme

/-- Where a gap is over, no comment begins. -/
theorem Gap.unmarked_skip (g : Gap) (cs : List Char) (p : Position) {rest : List Char}
    (h : (skip g cs p).rest = '/' :: rest) : rest.head? ≠ some '/' ∧ rest.head? ≠ some '*' := by
  fun_induction skip g cs p with
  | case1 => cases h
  | case5 c cs p hline hblock hc =>
    obtain ⟨rfl, rfl⟩ := List.cons.inj h
    refine ⟨fun hd => ?_, fun hd => ?_⟩
    · obtain ⟨tail, htail⟩ := List.head?_eq_some_iff.1 hd
      exact hline tail rfl htail
    · obtain ⟨tail, htail⟩ := List.head?_eq_some_iff.1 hd
      exact hblock tail rfl htail
  | case2 _ _ ih | case3 _ _ ih | case4 _ _ _ _ _ _ ih | case6 _ _ _ ih | case7 _ _ _ ih | case8 _ _ ih
  | case9 _ _ _ ih | case10 _ _ _ _ _ _ _ ih => exact ih h

namespace Cursor

/-- After spacing, a written token is the next item. -/
theorem next?_written {before sep rest : List Char} {t : Token} (hsep : Spacing sep) (ht : t.IsWritable)
    (hrest : ∀ c ∈ rest.head?, t.kind.endsAt c) :
    next? ⟨sep ++ (t.written ++ rest), .endOf before⟩ =
      some (.ok ⟨t.kind, t.text, .endOf (before ++ sep), .endOf (before ++ sep ++ t.written)⟩,
        ⟨rest, .endOf (before ++ sep ++ t.written)⟩) := by
  obtain ⟨ch, more, hwritten, hblank, hslash, hread⟩ := ht.read hrest
  have hskip : skipGap ⟨sep ++ (t.written ++ rest), .endOf before⟩ =
      ⟨ch :: (more ++ rest), .endOf (before ++ sep)⟩ := by
    rw [skipGap, hsep.skip, Position.afterAll_endOf, hwritten]
    exact Gap.skip_of_ne hblank hslash _
  unfold next?
  rw [hskip]
  simp only [hread, drop_endOf, Lexeme.item, List.take_left, List.drop_left, String.ofList_toList, hwritten]

/-- Every scanned token stands as it would be written, after spacing. -/
theorem written_of_next? {before cs : List Char} {t : Token} {c : Cursor}
    (h : next? ⟨cs, .endOf before⟩ = some (.ok t, c)) :
    ∃ sep rest, cs = sep ++ (t.written ++ rest) ∧ Spacing sep ∧ t.IsWritable ∧
      ∀ ch ∈ rest.head?, t.kind.endsAt ch := by
  obtain ⟨gap, hcs, hposition, hgap⟩ := Gap.skip_passes .blank cs (.endOf before)
  have hmarks := @Gap.unmarked_skip .blank cs (.endOf before)
  have hskip : skipGap ⟨cs, .endOf before⟩ = Gap.skip .blank cs (.endOf before) := rfl
  unfold next? at h
  rw [hskip] at h
  generalize Gap.skip .blank cs (.endOf before) = start at h hcs hgap hmarks
  obtain ⟨rest, position⟩ := start
  cases rest with
  | nil => exact nomatch h
  | cons ch rest =>
    obtain ⟨⟨lexeme, n⟩, hread⟩ : ∃ r, Lexeme.read ch rest = r := ⟨_, rfl⟩
    simp only [hread, Option.some.injEq, Prod.mk.injEq] at h
    cases lexeme with
    | stray | unterminated => exact nomatch h.1
    | token kind text =>
      have hslash (hch : ch = '/') : rest.head? ≠ some '/' ∧ rest.head? ≠ some '*' :=
        hmarks (by rw [hch])
      have hstands := Lexeme.stands_of_read hread hslash
      obtain rfl : _ = t := Except.ok.inj h.1
      refine ⟨gap, rest.drop n, ?_, hgap.spacing (List.cons_ne_nil _ _), hstands.isWritable _ _, hstands.endsAt⟩
      rw [hcs, hstands.written_eq, List.cons_append, List.take_append_drop]

end Cursor

end reading

section joining

namespace Kind

theorem mem_all (k : Kind) : k ∈ all := by
  cases k <;> decide

/-- A character that begins no mark of two ends all but a word or a numeral. -/
theorem endsAt_of_not_mem {k : Kind} {c : Char} (hmark : c ∉ ['=', '/', '*'])
    (hword : k ∈ words → Text.isWordChar c = false) (hdigit : k = int → Text.isDigit c = false) :
    k.endsAt c := by
  simp only [List.mem_cons, List.not_mem_nil, or_false, not_or] at hmark
  unfold endsAt
  split
  · next hk =>
    rw [hword hk]
    rfl
  split
  · rw [hdigit rfl]
    rfl
  · exact decide_eq_true hmark.1
  · exact decide_eq_true hmark.1
  · rw [decide_eq_true hmark.2.1, decide_eq_true hmark.2.2]
    rfl
  · rfl

theorem endsAt_of_isBlank (k : Kind) {c : Char} (hc : Text.isBlank c) : k.endsAt c := by
  have hword : Text.isWordChar c = false := by
    rw [Bool.eq_false_iff]
    intro hword
    rw [Text.isBlank_of_isWordChar hword] at hc
    exact Bool.false_ne_true hc
  have hdigit := hword
  rw [Text.isWordChar, Bool.or_eq_false_iff] at hdigit
  refine endsAt_of_not_mem (fun hmem => ?_) (fun _ => hword) (fun _ => hdigit.2)
  have hnone : ['=', '/', '*'].all fun d => !Text.isBlank d := by decide
  have hc' := List.all_eq_true.1 hnone c hmem
  rw [hc] at hc'
  exact Bool.false_ne_true hc'

theorem endsAt_of_isWordChar {k : Kind} (hk : k ∉ words) {c : Char} (hc : Text.isWordChar c)
    (hdigit : k = int → Text.isDigit c = false) : k.endsAt c := by
  refine endsAt_of_not_mem (fun hmem => ?_) (fun h => absurd h hk) hdigit
  have hnone : ['=', '/', '*'].all fun d => !Text.isWordChar d := by decide
  have hc' := List.all_eq_true.1 hnone c hmem
  rw [hc] at hc'
  exact Bool.false_ne_true hc'

theorem endsAt_of_mem_symbols : ∀ p ∈ symbols, ∀ k ∈ all, k.mayTouch p.2 → k.endsAt p.1 := by
  decide +kernel

/-- Kinds that may touch are told apart by the first character of the second token. -/
theorem endsAt_of_mayTouch {k : Kind} {u : Token} (hu : u.IsWritable) (h : k.mayTouch u.kind) {c : Char}
    (hc : c ∈ u.written.head?) : k.endsAt c := by
  obtain ⟨kind, text, start, stop⟩ := u
  have hword {w : List Char} (hw : Text.isWord w) (hkind : kind ∈ words) (hc : c ∈ w.head?) : k.endsAt c := by
    obtain ⟨more, rfl⟩ := List.head?_eq_some_iff.1 hc
    rw [Text.isWord, Bool.and_eq_true] at hw
    refine endsAt_of_isWordChar (fun hk => h.1 ⟨hk, .inl hkind⟩) ?_ fun _ => Text.isDigit_of_isLetter hw.1
    rw [Text.isWordChar, hw.1, Bool.true_or]
  rcases (Token.isWritable_iff _).1 hu with ⟨hkind, hw, -⟩ | ⟨hkind, -, hall⟩ | ⟨hkind, -⟩ | hspelled
  · dsimp only at hkind hw
    subst hkind
    exact hword hw (by decide) hc
  · dsimp only at hkind hall
    subst hkind
    have hdigit : Text.isDigit c := hall c (List.mem_of_mem_head? hc)
    refine endsAt_of_isWordChar (fun hk => h.1 ⟨hk, .inr rfl⟩) ?_ fun hk => absurd ⟨hk, rfl⟩ h.2.1
    rw [Text.isWordChar, hdigit, Bool.or_true]
  · dsimp only at hkind
    subst hkind
    obtain rfl : '"' = c := Option.some.inj hc
    exact endsAt_of_not_mem (by decide) (fun _ => by decide) fun _ => by decide
  · dsimp only at hspelled h
    rw [Token.written_of_spelling hspelled] at hc
    rcases spelling_cases hspelled with ⟨d, hd, hsymbol⟩ | ⟨d, hd, hdouble⟩ | hmem
    · rw [hd] at hc
      obtain rfl : d = c := Option.some.inj hc
      exact endsAt_of_mem_symbols _ (mem_symbols hsymbol) k k.mem_all h
    · rw [hd] at hc
      obtain rfl : d = c := Option.some.inj hc
      rcases hdouble with ⟨rfl, rfl⟩ | ⟨rfl, rfl⟩
      · cases k <;> first | rfl | exact absurd h (by decide)
      · cases k <;> rfl
    · exact hword (keywords_spec _ hmem).1 (spelling_of_mem_keywords _ hmem).2 hc

end Kind

theorem Separates.spacing {a b : Kind} {sep : List Char} (h : Separates a b sep) : Spacing sep := by
  rcases h with ⟨-, h⟩ | ⟨rfl, -⟩
  · exact h
  · exact .nil

/-- A separator ends the token before it, or the next token does. -/
theorem Separates.endsAt {a : Kind} {u : Token} {sep : List Char} (h : Separates a u.kind sep)
    (hu : u.IsWritable) (more : List Char) : ∀ c ∈ (sep ++ (u.written ++ more)).head?, a.endsAt c := by
  intro c hc
  rcases h with ⟨⟨d, hd, hblank⟩, -⟩ | ⟨rfl, htouch⟩
  · rw [List.head?_append, Option.mem_def.1 hd] at hc
    obtain rfl : d = c := Option.some.inj hc
    exact a.endsAt_of_isBlank hblank
  · refine Kind.endsAt_of_mayTouch hu htouch ?_
    obtain ⟨ch, tail, hwritten, -⟩ := hu.read fun c (h : c ∈ [].head?) => nomatch h
    rw [hwritten] at hc ⊢
    exact hc

/-- Written tokens are the items of their text, in order. -/
theorem Written.items {cs : List Char} {us : List Token} (h : Written cs us) {sep : List Char}
    (hsep : Spacing sep) (before : List Char) :
    ∃ ts : List Token, Cursor.items ⟨sep ++ cs, .endOf before⟩ = ts.map .ok ∧
      ts.map (fun t => (t.kind, t.text)) = us.map fun t => (t.kind, t.text) := by
  induction h generalizing sep before with
  | nil =>
    refine ⟨[], ?_, rfl⟩
    rw [Cursor.items_eq, Cursor.next?, Cursor.skipGap, hsep.skip]
    rfl
  | @one t ht =>
    have hends : ∀ c ∈ [].head?, t.kind.endsAt c := by
      intro c hc
      cases hc
    have hnext := @Cursor.next?_written before _ _ _ hsep ht hends
    rw [List.append_nil] at hnext
    refine ⟨[⟨t.kind, t.text, .endOf (before ++ sep), .endOf (before ++ sep ++ t.written)⟩], ?_, rfl⟩
    rw [Cursor.items_eq, hnext]
    dsimp only
    rw [Cursor.items_eq]
    rfl
  | @cons t u sep' cs us ht hsep' hcs ih =>
    have hends : ∀ c ∈ (sep' ++ cs).head?, t.kind.endsAt c := by
      obtain ⟨more, hu, rfl⟩ := hcs.front
      exact hsep'.endsAt hu more
    obtain ⟨ts, hitems, hts⟩ := ih hsep'.spacing (before ++ sep ++ t.written)
    refine ⟨⟨t.kind, t.text, .endOf (before ++ sep), .endOf (before ++ sep ++ t.written)⟩ :: ts, ?_,
      congrArg (_ :: ·) hts⟩
    rw [Cursor.items_eq, Cursor.next?_written hsep ht hends]
    dsimp only
    rw [List.map_cons, ← hitems]

/-- Scanning undoes writing: of tokens that are joined by separators each is yielded with its kind and text, and
then the end as often as it is asked. -/
theorem scan_written {source : String} {us : List Token} (h : Written source.toList us) :
    ∃ ts : List Token, ts.map (fun t => (t.kind, t.text)) = us.map (fun t => (t.kind, t.text)) ∧
      ∀ n, (Cursor.ofText source).scanTimes (us.length + n) =
        ts.map .ok ++ List.replicate n (.ok (.eof (.endOf source.toList))) := by
  obtain ⟨ts, hitems, hts⟩ := h.items .nil []
  have hlength : ts.length = us.length := by
    simpa only [List.length_map] using congrArg List.length hts
  refine ⟨ts, hts, fun n => ?_⟩
  have hscan := Cursor.scanTimes_items [] source.toList n
  rw [List.nil_append] at hitems
  rwa [hitems, List.length_map, hlength] at hscan

theorem scan_written_of_comments :
    ∃ ts : List Token,
      ts.map (fun t => (t.kind, t.text)) =
        [(.ident, "x"), (.equal, "=="), (.string, "a/*é"), (.bang, "!"), (.int, "1"), (.ident, "y"),
          (.slash, "/"), (.ident, "z")] ∧
      ∀ n, (Cursor.ofText "x==\"a/*é\"!1y /*/**/*/// c\n/z").scanTimes (8 + n) =
        ts.map .ok ++
          List.replicate n (.ok (.eof (.endOf "x==\"a/*é\"!1y /*/**/*/// c\n/z".toList))) := by
  have hword (text : String) (hw : Text.isWord text.toList)
      (h : ∀ k ∈ Kind.all, k.spelling? ≠ some text) : (⟨.ident, text, .first, .first⟩ : Token).IsWritable :=
    ⟨hw, fun k => h k k.mem_all⟩
  have hcomments : Spacing " /*/**/*/// c\n".toList :=
    .blank (by decide)
      (.block ((leaves_last.closing Nat.one_pos).opening Nat.one_pos)
        (.line (by decide : '\n' ∉ [' ', 'c']) .nil))
  have hstring : (⟨.string, "a/*é", .first, .first⟩ : Token).IsWritable := by
    change '"' ∉ "a/*é".toList
    decide
  have hint : (⟨.int, "1", .first, .first⟩ : Token).IsWritable := ⟨by decide, List.all_eq_true.1 (by decide)⟩
  have hspelled (kind : Kind) (text : String) (h : kind.spelling? = some text) :
      (⟨kind, text, .first, .first⟩ : Token).IsWritable :=
    (Token.isWritable_iff _).2 (.inr (.inr (.inr h)))
  have hwritten :=
    Written.cons (hword "x" (by decide) (by decide)) (.inr ⟨rfl, by decide⟩) <|
    .cons (hspelled .equal "==" rfl) (.inr ⟨rfl, by decide⟩) <|
    .cons hstring (.inr ⟨rfl, by decide⟩) <|
    .cons (hspelled .bang "!" rfl) (.inr ⟨rfl, by decide⟩) <|
    .cons hint (.inr ⟨rfl, by decide⟩) <|
    .cons (hword "y" (by decide) (by decide)) (.inl ⟨⟨' ', rfl, by decide⟩, hcomments⟩) <|
    .cons (hspelled .slash "/" rfl) (.inr ⟨rfl, by decide⟩) <|
    .one (hword "z" (by decide) (by decide))
  exact scan_written (Eq.mp (congrArg (Written · _) (by decide)) hwritten)

end joining

end Monkey
