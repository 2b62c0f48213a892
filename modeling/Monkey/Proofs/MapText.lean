import Mathlib
import Monkey.Proofs.Recognition

namespace Monkey

open Parse

section text

variable (place : Nat → Position × Position)

def nameAt (k : Nat) (name : String) : Ident :=
  ⟨name, (place k).1, (place k).2⟩

/-- Whether the array `arr` is empty. -/
def emptiness : Expr :=
  .binary (.call (.ident (nameAt place 22 "len")) [.ident (nameAt place 24 "arr")])
    ⟨.equal, "==", (place 26).1, (place 26).2⟩ (.int 0)

/-- The call of `f` on the first element. -/
def onFirst : Expr :=
  .call (.ident (nameAt place 45 "f"))
    [.call (.ident (nameAt place 47 "first")) [.ident (nameAt place 49 "arr")]]

/-- The call of `iter` on what is left, with the result for the first element added. -/
def next : Expr :=
  .call (.ident (nameAt place 34 "iter"))
    [.call (.ident (nameAt place 36 "rest")) [.ident (nameAt place 38 "arr")],
      .call (.ident (nameAt place 41 "push")) [.ident (nameAt place 43 "accumulated"), onFirst place]]

def iterBody : List Stmt :=
  [.expr (.cond (emptiness place) [.expr (.ident (nameAt place 30 "accumulated"))] (some [.expr (next place)]))]

def mapBody : List Stmt :=
  [.bind (nameAt place 11 "iter")
      (.function [nameAt place 15 "arr", nameAt place 17 "accumulated"] (iterBody place)),
    .expr (.call (.ident (nameAt place 58 "iter")) [.ident (nameAt place 60 "arr"), .array []])]

/-- The statement that binds `map`, with its tokens in these places. -/
def mapLet : Stmt :=
  .bind (nameAt place 1 "map") (.function [nameAt place 5 "arr", nameAt place 7 "f"] (mapBody place))

end text

/-- The text of the statement that binds `map`. -/
def mapText : String :=
  "let map = fn(arr, f) \x7b let iter = fn(arr, accumulated) \x7b if (len(arr) == 0) \x7b accumulated \x7d" ++
    " else \x7b iter(rest(arr), push(accumulated, f(first(arr)))); \x7d \x7d; iter(arr, []); \x7d;"

/-- The tokens of the text without their places. -/
def mapWords : List (Kind × String) :=
  [(.letWord, "let"), (.ident, "map"), (.assign, "="), (.fnWord, "fn"), (.parenL, "("), (.ident, "arr"), (.comma, ","),
    (.ident, "f"), (.parenR, ")"), (.braceL, "\x7b"), (.letWord, "let"), (.ident, "iter"), (.assign, "="),
    (.fnWord, "fn"), (.parenL, "("), (.ident, "arr"), (.comma, ","), (.ident, "accumulated"), (.parenR, ")"),
    (.braceL, "\x7b"), (.ifWord, "if"), (.parenL, "("), (.ident, "len"), (.parenL, "("), (.ident, "arr"),
    (.parenR, ")"), (.equal, "=="), (.int, "0"), (.parenR, ")"), (.braceL, "\x7b"), (.ident, "accumulated"),
    (.braceR, "\x7d"), (.elseWord, "else"), (.braceL, "\x7b"), (.ident, "iter"), (.parenL, "("), (.ident, "rest"),
    (.parenL, "("), (.ident, "arr"), (.parenR, ")"), (.comma, ","), (.ident, "push"), (.parenL, "("),
    (.ident, "accumulated"), (.comma, ","), (.ident, "f"), (.parenL, "("), (.ident, "first"), (.parenL, "("),
    (.ident, "arr"), (.parenR, ")"), (.parenR, ")"), (.parenR, ")"), (.parenR, ")"), (.semicolon, ";"),
    (.braceR, "\x7d"), (.braceR, "\x7d"), (.semicolon, ";"), (.ident, "iter"), (.parenL, "("), (.ident, "arr"),
    (.comma, ","), (.bracketL, "["), (.bracketR, "]"), (.parenR, ")"), (.semicolon, ";"), (.braceR, "\x7d"),
    (.semicolon, ";")]

section spelling

variable (place : Nat → Position × Position)

def tokenAt (k : Nat) (kind : Kind) (text : String) : Token :=
  ⟨kind, text, (place k).1, (place k).2⟩

def tokensAt (words : List (Kind × String)) : List Token :=
  words.zipIdx.map fun word => tokenAt place word.2 word.1.1 word.1.2

theorem phrase_name (level : Level) (k : Nat) (name : String) :
    Phrase level [tokenAt place k .ident name] (.ident (nameAt place k name)) :=
  (Phrase.primary (.ident rfl)).loosen level.rank_le_call

theorem phrase_call (k i j : Nat) (name : String) {us : List Token} {args : List Expr} (h : Elements us args) :
    Phrase .equality
      (tokenAt place k .ident name :: tokenAt place i .parenL "(" :: us ++ [tokenAt place j .parenR ")"])
      (.call (.ident (nameAt place k name)) args) :=
  (Phrase.call (phrase_name place .call k name) rfl h rfl).loosen (by decide)

theorem names_two (i j k : Nat) (a b : String) :
    Names [tokenAt place i .ident a, tokenAt place j .comma ",", tokenAt place k .ident b]
      [nameAt place i a, nameAt place k b] :=
  .cons rfl rfl (.one rfl) nofun

theorem elements_two (k : Nat) {us vs : List Token} {a b : Expr} (ha : Phrase .equality us a)
    (hb : Phrase .equality vs b) : Elements (us ++ tokenAt place k .comma "," :: vs) [a, b] :=
  .cons ha rfl (.one hb) nofun

theorem braced_at (i j : Nat) {us : List Token} {stmts : List Stmt} (h : Sentences us stmts) :
    Braced (tokenAt place i .braceL "\x7b" :: us ++ [tokenAt place j .braceR "\x7d"]) stmts :=
  .mk rfl h rfl

theorem phrase_function {us vs : List Token} {params : List Ident} {body : List Stmt} (hparams : Names us params)
    (hbody : Braced vs body) (i j k : Nat) :
    Phrase .equality
      (tokenAt place i .fnWord "fn" :: tokenAt place j .parenL "(" :: us ++ tokenAt place k .parenR ")" :: vs)
      (.function params body) :=
  (Phrase.primary (.function rfl rfl hparams rfl hbody)).loosen (by decide)

theorem sentence_bind (i j k : Nat) (name : String) {us : List Token} {value : Expr} (h : Phrase .equality us value) :
    Sentence (tokenAt place i .letWord "let" :: tokenAt place j .ident name :: tokenAt place k .assign "=" :: us)
      (.bind (nameAt place j name) value) :=
  .bind rfl rfl rfl h

theorem sentences_ended (k : Nat) {us vs : List Token} {s : Stmt} {stmts : List Stmt} (h : Sentence us s)
    (hstmts : Sentences vs stmts) : Sentences (us ++ tokenAt place k .semicolon ";" :: vs) (s :: stmts) :=
  .ended h rfl hstmts

theorem sentences_bare {us : List Token} {value : Expr} (h : Phrase .equality us value) :
    Sentences (us ++ []) [.expr value] :=
  .bare (.expr h) (by decide) .nil

theorem phrase_emptiness :
    Phrase .equality
      (tokenAt place 22 .ident "len" :: tokenAt place 23 .parenL "(" :: [tokenAt place 24 .ident "arr"] ++
        [tokenAt place 25 .parenR ")"] ++ tokenAt place 26 .equal "==" :: [tokenAt place 27 .int "0"])
      (emptiness place) := by
  have hvalue : Text.value "0".toList = 0 := by decide
  have hzero : Primary [tokenAt place 27 .int "0"] (.int (.ofNat (Text.value "0".toList))) :=
    .int rfl (hvalue.trans_le (Nat.zero_le _))
  rw [hvalue] at hzero
  have hlen := phrase_call place 22 23 25 "len" (.one (phrase_name place .equality 24 "arr"))
  exact .binary (List.mem_cons_self : Kind.equal ∈ Level.equality.infixes) hlen
    ((Phrase.primary hzero).loosen (by decide))

theorem phrase_cond {us vs ws : List Token} {test : Expr} {yes no : List Stmt} (htest : Phrase .equality us test)
    (hyes : Braced vs yes) (hno : Braced ws no) (i j k l : Nat) :
    Phrase .equality
      (tokenAt place i .ifWord "if" :: tokenAt place j .parenL "(" :: us ++ tokenAt place k .parenR ")" :: vs ++
        tokenAt place l .elseWord "else" :: ws)
      (.cond test yes (some no)) :=
  (Phrase.primary (.condElse rfl rfl htest rfl hyes rfl hno)).loosen (by decide)

theorem phrase_empty (i j : Nat) :
    Phrase .equality (tokenAt place i .bracketL "[" :: [] ++ [tokenAt place j .bracketR "]"]) (.array []) :=
  (Phrase.primary (.array rfl .nil rfl)).loosen (by decide)

/-- The tokens at these places spell the statement. -/
theorem sentences_mapLet : Sentences (tokensAt place mapWords) [mapLet place] := by
  have hfirst := phrase_call place 47 48 50 "first" (.one (phrase_name place .equality 49 "arr"))
  have honFirst : Phrase .equality _ (onFirst place) := phrase_call place 45 46 51 "f" (.one hfirst)
  have hpush := phrase_call place 41 42 52 "push"
    (elements_two place 44 (phrase_name place .equality 43 "accumulated") honFirst)
  have hrest := phrase_call place 36 37 39 "rest" (.one (phrase_name place .equality 38 "arr"))
  have hnext : Phrase .equality _ (next place) :=
    phrase_call place 34 35 53 "iter" (elements_two place 40 hrest hpush)
  have hyes := braced_at place 29 31 (sentences_bare (phrase_name place .equality 30 "accumulated"))
  have hno := braced_at place 33 55 (sentences_ended place 54 (.expr hnext) .nil)
  have hcond := phrase_cond place (phrase_emptiness place) hyes hno 20 21 28 32
  have hiter := phrase_function place (names_two place 15 16 17 "arr" "accumulated")
    (braced_at place 19 56 (sentences_bare hcond)) 13 14 18
  have hcall := phrase_call place 58 59 64 "iter"
    (elements_two place 61 (phrase_name place .equality 60 "arr") (phrase_empty place 62 63))
  have hbody : Sentences _ (mapBody place) := sentences_ended place 57 (sentence_bind place 10 11 12 "iter" hiter)
    (sentences_ended place 65 (.expr hcall) .nil)
  have hmap := phrase_function place (names_two place 5 6 7 "arr" "f") (braced_at place 9 66 hbody) 3 4 8
  have hlet := sentences_ended place 67 (sentence_bind place 0 1 2 "map" hmap) .nil
  simp only [List.cons_append, List.nil_append] at hlet
  exact hlet

end spelling

/-- Tokens of these kinds and texts have some places. -/
theorem exists_tokensAt {items : List Item} {words : List (Kind × String)}
    (h : items.map (fun item => item.toOption.map fun t => (t.kind, t.text)) = words.map some) :
    ∃ place, items = (tokensAt place words).map .ok := by
  have hlength : items.length = words.length := by simpa using congrArg List.length h
  refine ⟨fun k => (items[k]?.bind Except.toOption).elim (.first, .first) fun t => (t.start, t.stop),
    List.ext_getElem (by simpa [tokensAt] using hlength) fun k hk hk' => ?_⟩
  have hword := List.getElem_of_eq h (by simpa using hk)
  cases hitem : items[k] with
  | error e => simp [hitem, Except.toOption] at hword
  | ok t =>
    simp only [List.getElem_map, hitem, Except.toOption, Option.map_some, Option.some.injEq] at hword
    simp [tokensAt, tokenAt, ← hword, hk, hitem, Except.toOption]

/-- The statement is what the text is read as. -/
theorem parse_mapText : ∃ place, parse mapText = ⟨[mapLet place], []⟩ := by
  have hwords : (itemsOf mapText).map (fun item => item.toOption.map fun t => (t.kind, t.text)) =
      mapWords.map some := by cbv
  obtain ⟨place, hitems⟩ := exists_tokensAt hwords
  obtain ⟨hlog, hvalue⟩ := (program_yields_iff _ _).2 (sentences_mapLet place)
  refine ⟨place, ?_⟩
  rw [parse, hitems, ofItems_map_ok, hvalue, hlog]
  rfl

end Monkey
