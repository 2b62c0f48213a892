import Monkey.Proofs.Bare
import Monkey.Token.Scan

namespace Monkey

/-- Wherever the text stands, it is scanned into tokens of these kinds and texts and without an error. -/
def Reads (cs : List Char) (us : List Token) : Prop :=
  ∀ p, ∃ ts : List Token, Cursor.items ⟨cs, p⟩ = ts.map .ok ∧ ts.map .bare = us

/-- A word or a numeral in front of the text ends there. -/
def Stops (cs : List Char) : Prop :=
  ∀ c ∈ cs.head?, Text.isWordChar c = false

/-- The token of a kind that is always spelled in the same way. -/
def Kind.token (k : Kind) : Token :=
  .synthetic k k.name

@[simp] theorem Kind.kind_token (k : Kind) : k.token.kind = k :=
  rfl

namespace Cursor

theorem items_eq (c : Cursor) :
    c.items =
      match c.next? with
      | none => []
      | some (item, c') => item :: c'.items := by
  rw [items]
  split
  · next h => rw [h]
  · next h => simp only [h]

theorem items_congr {c c' : Cursor} (h : c.next? = c'.next?) : c.items = c'.items := by
  rw [items_eq, items_eq c', h]

end Cursor

theorem reads_nil : Reads [] [] := by
  intro p
  exact ⟨[], (Cursor.items_eq _).trans (by simp [Cursor.next?, Cursor.skipGap, Gap.skip]), rfl⟩

theorem Reads.blank {c : Char} {cs : List Char} {us : List Token} (h : Reads cs us)
    (hc : Text.isBlank c) : Reads (c :: cs) us := by
  intro p
  obtain ⟨ts, hitems, hbare⟩ := h (p.after c)
  have hskip : Cursor.skipGap ⟨c :: cs, p⟩ = Cursor.skipGap ⟨cs, p.after c⟩ := Gap.skip_of_blank hc cs p
  have hnext : Cursor.next? ⟨c :: cs, p⟩ = Cursor.next? ⟨cs, p.after c⟩ := by
    unfold Cursor.next?
    rw [hskip]
  exact ⟨ts, (Cursor.items_congr hnext).trans hitems, hbare⟩

/-- The token in front is scanned, and after it the rest. -/
theorem Reads.token {ch : Char} {cs text : List Char} {kind : Kind} {n : Nat} {us : List Token}
    (h : Reads (cs.drop n) us) (hch : Text.isBlank ch = false)
    (hcs : ch = '/' → cs.head? ≠ some '/' ∧ cs.head? ≠ some '*')
    (hread : Lexeme.read ch cs = (.token kind text, n)) :
    Reads (ch :: cs) (.synthetic kind (String.ofList text) :: us) := by
  intro p
  have hskip : Cursor.skipGap ⟨ch :: cs, p⟩ = ⟨ch :: cs, p⟩ := Gap.skip_of_ne hch hcs p
  let stop := Cursor.drop (n + 1) ⟨ch :: cs, p⟩
  have hstop : stop = ⟨cs.drop n, stop.position⟩ :=
    congrArg (Cursor.mk · stop.position) (Cursor.rest_drop (n + 1) ⟨ch :: cs, p⟩)
  have hnext : Cursor.next? ⟨ch :: cs, p⟩ =
      some (.ok ⟨kind, String.ofList text, p, stop.position⟩, stop) := by
    simp only [Cursor.next?, hskip, hread, Lexeme.item]
    rfl
  obtain ⟨ts, hitems, hbare⟩ := h stop.position
  refine ⟨⟨kind, String.ofList text, p, stop.position⟩ :: ts, ?_, ?_⟩
  · rw [Cursor.items_eq, hnext, List.map_cons, ← hitems, ← hstop]
  · rw [List.map_cons, hbare]
    rfl

section symbols

/-- The characters of operators and marks begin nothing else. -/
theorem Kind.symbols_spec : ∀ p ∈ symbols, Text.isBlank p.1 = false ∧ p.1 ≠ '"' ∧
    Text.isDigit p.1 = false ∧ Text.isLetter p.1 = false ∧ String.ofList [p.1] = p.2.name := by
  decide

variable {c : Char} {k : Kind} {cs : List Char} {us : List Token}

theorem Kind.mem_symbols (hk : symbols.lookup c = some k) : (c, k) ∈ symbols := by
  obtain ⟨before, after, hsymbols, -⟩ := List.lookup_eq_some_iff.1 hk
  rw [hsymbols]
  simp

theorem Lexeme.read_symbol (hk : Kind.symbols.lookup c = some k)
    (heq : c ∈ ['=', '!'] → cs.head? ≠ some '=') : read c cs = (.token k [c], 0) := by
  obtain ⟨-, hquote, hdigit, hletter, -⟩ := Kind.symbols_spec _ (Kind.mem_symbols hk)
  have hkind : Kind.ofSymbol? c cs = some (k, 0) := by
    unfold Kind.ofSymbol?
    rw [if_neg, if_neg, hk]
    · rfl
    · rintro ⟨hhead, rfl⟩
      exact heq (by simp) hhead
    · rintro ⟨hhead, rfl⟩
      exact heq (by simp) hhead
  unfold read
  rw [if_neg hquote, if_neg (by rw [hdigit]; simp), if_neg (by rw [hletter]; simp), hkind]
  rfl

theorem Reads.symbol (h : Reads cs us) (hk : Kind.symbols.lookup c = some k)
    (heq : c ∈ ['=', '!'] → cs.head? ≠ some '=')
    (hslash : c = '/' → cs.head? ≠ some '/' ∧ cs.head? ≠ some '*') : Reads (c :: cs) (k.token :: us) := by
  obtain ⟨hblank, -, -, -, hname⟩ := Kind.symbols_spec _ (Kind.mem_symbols hk)
  have htoken : k.token = .synthetic k (String.ofList [c]) := by
    rw [Kind.token, hname]
  rw [htoken]
  exact Reads.token (n := 0) h hblank hslash (Lexeme.read_symbol hk heq)

/-- A bracket or another mark is scanned whatever comes after it. -/
theorem Reads.mark (h : Reads cs us) (c : Char) (hc : c ∉ ['=', '!', '/'])
    (hk : Kind.symbols.lookup c = some k) : Reads (c :: cs) (k.token :: us) := by
  simp only [List.mem_cons, List.not_mem_nil, or_false, not_or] at hc
  refine h.symbol hk (fun hmem => ?_) (fun hslash => absurd hslash hc.2.2)
  simp only [List.mem_cons, List.not_mem_nil, or_false] at hmem
  rcases hmem with hmem | hmem
  · exact absurd hmem hc.1
  · exact absurd hmem hc.2.1

/-- So is an operator of one character before a blank. -/
theorem Reads.spaced (h : Reads cs us) (c : Char) (hk : Kind.symbols.lookup c = some k) :
    Reads (c :: ' ' :: cs) (k.token :: us) :=
  (h.blank (by decide)).symbol hk (fun _ => by simp) (fun _ => by simp)

theorem Reads.double (h : Reads cs us) (hc : c = '=' ∧ k = .equal ∨ c = '!' ∧ k = .notEqual) :
    Reads (c :: '=' :: cs) (k.token :: us) := by
  rcases hc with ⟨rfl, rfl⟩ | ⟨rfl, rfl⟩
  · exact Reads.token (n := 1) h (by decide) (by simp) rfl
  · exact Reads.token (n := 1) h (by decide) (by simp) rfl

end symbols

section words

theorem Text.isBlank_of_isWordChar {c : Char} (hc : isWordChar c) : isBlank c = false := by
  rw [isWordChar_iff] at hc
  simp only [isBlank, blankRanges, List.any_cons, List.any_nil, Bool.or_false, Bool.or_eq_false_iff,
    Bool.and_eq_false_iff, decide_eq_false_iff_not]
  omega

theorem Text.isDigit_of_isLetter {c : Char} (hc : isLetter c) : isDigit c = false := by
  rw [isLetter_iff] at hc
  rw [Bool.eq_false_iff, ne_eq, isDigit_iff]
  omega

/-- Words begin with a letter, in which the underscore is included. -/
def Text.isWord : List Char → Bool
  | [] => false
  | c :: more => isLetter c && more.all isWordChar

theorem takeWhile_append_eq {p : Char → Bool} {more rest : List Char} (hmore : ∀ c ∈ more, p c)
    (hrest : ∀ c ∈ rest.head?, p c = false) : (more ++ rest).takeWhile p = more := by
  rw [List.takeWhile_append_of_pos hmore]
  cases rest with
  | nil => rw [List.takeWhile_nil, List.append_nil]
  | cons c rest =>
    rw [List.takeWhile_cons_of_neg, List.append_nil]
    rw [hrest c rfl]
    exact Bool.false_ne_true

variable {rest : List Char} {us : List Token}

theorem Lexeme.read_word {c : Char} {more : List Char} (hc : Text.isLetter c)
    (hmore : ∀ d ∈ more, Text.isWordChar d) (hrest : Stops rest) :
    read c (more ++ rest) = (token (.ofWord (c :: more)) (c :: more), more.length) := by
  have hdigit := Text.isDigit_of_isLetter hc
  have hquote : c ≠ '"' := by
    rintro rfl
    exact absurd hc (by decide)
  unfold read
  rw [if_neg hquote, if_neg (by rw [hdigit]; simp), if_pos hc, takeWhile_append_eq hmore hrest]

/-- A word that stops is scanned as one token. -/
theorem Reads.word (h : Reads rest us) {w : List Char} (hw : Text.isWord w) (hrest : Stops rest) :
    Reads (w ++ rest) (.synthetic (.ofWord w) (String.ofList w) :: us) := by
  rcases w with _ | ⟨c, more⟩
  · exact nomatch hw
  · rw [Text.isWord, Bool.and_eq_true, List.all_eq_true] at hw
    have hword : Text.isWordChar c := by
      rw [Text.isWordChar, hw.1]
      rfl
    have hblank := Text.isBlank_of_isWordChar hword
    have hslash : c ≠ '/' := by
      rintro rfl
      exact absurd hw.1 (by decide)
    rw [List.cons_append]
    refine Reads.token ?_ hblank (fun h => absurd h hslash) (Lexeme.read_word hw.1 hw.2 hrest)
    rw [List.drop_left]
    exact h

theorem Kind.keywords_spec : ∀ p ∈ keywords, Text.isWord p.1 ∧ ofWord p.1 = p.2 := by
  decide

theorem Reads.keyword (h : Reads rest us) {w : String} {k : Kind} (hw : (w.toList, k) ∈ Kind.keywords)
    (hrest : Stops rest) : Reads (w.toList ++ rest) (.synthetic k w :: us) := by
  have hspec := Kind.keywords_spec _ hw
  have hword := h.word hspec.1 hrest
  rwa [hspec.2, String.ofList_toList] at hword

theorem Lexeme.read_numeral {c : Char} {more : List Char} (hc : Text.isDigit c)
    (hmore : ∀ d ∈ more, Text.isDigit d) (hrest : ∀ d ∈ rest.head?, Text.isDigit d = false) :
    read c (more ++ rest) = (token .int (c :: more), more.length) := by
  have hquote : c ≠ '"' := by
    rintro rfl
    exact absurd hc (by decide)
  unfold read
  rw [if_neg hquote, if_pos hc, takeWhile_append_eq hmore hrest]

/-- So is a numeral. -/
theorem Reads.numeral (h : Reads rest us) {c : Char} {more : List Char} (hc : Text.isDigit c)
    (hmore : ∀ d ∈ more, Text.isDigit d) (hrest : Stops rest) :
    Reads (c :: more ++ rest) (.synthetic .int (String.ofList (c :: more)) :: us) := by
  have hword : Text.isWordChar c := by
    rw [Text.isWordChar, hc, Bool.or_true]
  have hblank := Text.isBlank_of_isWordChar hword
  have hslash : c ≠ '/' := by
    rintro rfl
    exact absurd hc (by decide)
  have hstop (d : Char) (hd : d ∈ rest.head?) : Text.isDigit d = false := by
    have hd := hrest d hd
    rw [Text.isWordChar, Bool.or_eq_false_iff] at hd
    exact hd.2
  rw [List.cons_append]
  refine Reads.token ?_ hblank (fun h => absurd h hslash) (Lexeme.read_numeral hc hmore hstop)
  rw [List.drop_left]
  exact h

end words

end Monkey
