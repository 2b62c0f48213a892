import Mathlib
import Monkey.Proofs.Partition

namespace Monkey

/-- The number, if it fits into 32 bits with its sign. -/
def i32? (n : Int) : Option Int :=
  if -0x80000000 ≤ n ∧ n < 0x80000000 then some n else none

/-- The index, if it fits into 64 bits. -/
def usize? (n : Int) : Option Nat :=
  if 0 ≤ n ∧ n < 0x10000000000000000 then some n.toNat else none

def Position.after? (p : Position) (c : Char) : Option Position :=
  if c = '\n' then (i32? (p.line + 1)).map (⟨·, 1⟩) else (i32? (p.column + 1)).map (⟨p.line, ·⟩)

theorem Position.endOf_pos (cs : List Char) : 0 < (endOf cs).line ∧ 0 < (endOf cs).column := by
  simp only [endOf]
  omega

namespace Text

/-- The number of bytes that characters take. -/
def bytes (cs : List Char) : Nat :=
  (cs.map (·.utf8Size)).sum

/-- Cuts a text at a byte, if there is one at which a character begins or the text ends. -/
def cut? : Nat → List Char → Option (List Char × List Char)
  | 0, cs => some ([], cs)
  | _ + 1, [] => none
  | n + 1, c :: cs =>
    if c.utf8Size ≤ n + 1 then (cut? (n + 1 - c.utf8Size) cs).map fun (front, rest) => (c :: front, rest)
    else none

theorem bytes_nil : bytes [] = 0 :=
  rfl

theorem bytes_cons (c : Char) (cs : List Char) : bytes (c :: cs) = c.utf8Size + bytes cs := by
  rw [bytes, List.map_cons, List.sum_cons, ← bytes]

theorem bytes_append (cs ds : List Char) : bytes (cs ++ ds) = bytes cs + bytes ds := by
  rw [bytes, List.map_append, List.sum_append, ← bytes, ← bytes]

theorem bytes_le (cs : List Char) : bytes cs ≤ 4 * cs.length := by
  induction cs with
  | nil => exact Nat.le_refl 0
  | cons c cs ih =>
    have hc := c.utf8Size_le_four
    rw [bytes_cons, List.length_cons]
    omega

theorem cut?_eq_some_iff {n : Nat} {cs front rest : List Char} :
    cut? n cs = some (front, rest) ↔ cs = front ++ rest ∧ n = bytes front := by
  constructor
  · intro h
    fun_induction cut? n cs generalizing front rest with
    | case1 cs =>
      cases h
      exact ⟨rfl, rfl⟩
    | case2 n => exact nomatch h
    | case3 n c cs hc ih =>
      obtain ⟨⟨front, rest⟩, hcut, hpair⟩ := Option.map_eq_some_iff.1 h
      cases hpair
      obtain ⟨rfl, hn⟩ := ih hcut
      refine ⟨rfl, ?_⟩
      rw [bytes_cons]
      omega
    | case4 n c cs hc => exact nomatch h
  · rintro ⟨rfl, rfl⟩
    induction front with
    | nil => rw [bytes_nil, cut?, List.nil_append]
    | cons c front ih =>
      have hpos := c.utf8Size_pos
      obtain ⟨n, hn⟩ : ∃ n, bytes (c :: front) = n + 1 := ⟨_, (Nat.succ_pred_eq_of_pos (by
        rw [bytes_cons]
        omega)).symm⟩
      have hrest : n + 1 - c.utf8Size = bytes front := by
        rw [← hn, bytes_cons, Nat.add_sub_cancel_left]
      have hle : c.utf8Size ≤ n + 1 := by
        rw [← hn, bytes_cons]
        exact Nat.le_add_right _ _
      rw [hn, List.cons_append, cut?, if_pos hle, hrest, ih]
      rfl

/-- The part of a text from one byte to another. -/
def slice? (text : String) (start stop : Nat) : Option String :=
  if start ≤ stop then do
    let (_, tail) ← cut? start text.toList
    let (part, _) ← cut? (stop - start) tail
    return String.ofList part
  else none

/-- There is such a part exactly if the bytes are in order, within the text and at the borders of characters. -/
theorem slice?_eq_some_iff {text part : String} {start stop : Nat} :
    slice? text start stop = some part ↔
      ∃ front rest, text.toList = front ++ (part.toList ++ rest) ∧ start = bytes front ∧
        stop = bytes (front ++ part.toList) := by
  constructor
  · intro h
    rw [slice?] at h
    split at h
    · next hle =>
      obtain ⟨⟨front, tail⟩, hfront, htail⟩ := Option.bind_eq_some_iff.1 h
      obtain ⟨⟨cs, rest⟩, hpart, hcs⟩ := Option.bind_eq_some_iff.1 htail
      cases hcs
      obtain ⟨hsplit, hstart⟩ := cut?_eq_some_iff.1 hfront
      obtain ⟨rfl, hstop⟩ := cut?_eq_some_iff.1 hpart
      rw [String.toList_ofList]
      refine ⟨front, rest, hsplit, hstart, ?_⟩
      rw [bytes_append]
      omega
    · exact nomatch h
  · rintro ⟨front, rest, hsplit, rfl, rfl⟩
    have hfront := cut?_eq_some_iff.2 ⟨hsplit, rfl⟩
    have hpart : cut? (bytes (front ++ part.toList) - bytes front) (part.toList ++ rest) =
        some (part.toList, rest) := by
      refine cut?_eq_some_iff.2 ⟨rfl, ?_⟩
      rw [bytes_append, Nat.add_sub_cancel_left]
    rw [slice?, if_pos (bytes_append front part.toList ▸ Nat.le_add_right _ _), hfront]
    simp only [Option.bind_eq_bind, Option.bind_some, hpart, String.ofList_toList]
    rfl

end Text

/-- A scanner that looks one character ahead and keeps the byte at which a token starts and the one that it
has come to. All that it does with numbers and slices can fail, and then it gives nothing. Nor does a loop that
comes no further give anything. -/
structure Scanner where
  chars : List Char
  ahead : Option Char
  start : Nat
  current : Nat
  startPlace : Position
  place : Position

namespace Scanner

def ofText (text : String) : Scanner :=
  ⟨text.toList, none, 0, 0, .first, .first⟩

/-- The characters that are left, the one ahead included. -/
def left (s : Scanner) : List Char :=
  s.ahead.toList ++ s.chars

def peek (s : Scanner) : Option Char × Scanner :=
  match s.ahead, s.chars with
  | some c, _ => (some c, s)
  | none, [] => (none, s)
  | none, c :: cs => (some c, { s with chars := cs, ahead := some c })

/-- The next character, which is the one ahead if there is one. -/
def pop? (s : Scanner) : Option (Char × Scanner) :=
  match s.ahead, s.chars with
  | some c, _ => some (c, { s with ahead := none })
  | none, [] => none
  | none, c :: cs => some (c, { s with chars := cs })

def consume (s : Scanner) : Option (Option Char × Scanner) :=
  match s.pop? with
  | none => some (none, s)
  | some (c, s) => do
    let current ← usize? (s.current + c.utf8Size)
    let place ← s.place.after? c
    return (some c, { s with current, place })

def expect (want : Char) (s : Scanner) : Option (Bool × Scanner) :=
  let (c?, s) := s.peek
  if c? = some want then do
    let (_, s) ← s.consume
    return (true, s)
  else some (false, s)

def skipWhile (p : Char → Bool) (s : Scanner) : Option Scanner :=
  let (c?, s₁) := s.peek
  match c? with
  | none => some s₁
  | some c =>
    if p c then do
      let (_, s₂) ← s₁.consume
      if s₂.left.length < s.left.length then skipWhile p s₂ else none
    else some s₁
termination_by s.left.length

def skipLine (s : Scanner) : Option Scanner := do
  let (c?, s₁) ← s.consume
  match c? with
  | none => some s₁
  | some c =>
    if c = '\n' then some s₁
    else if s₁.left.length < s.left.length then skipLine s₁
    else none
termination_by s.left.length

/-- The depth of comments after a character and, if both make a mark, the next one. -/
def mark (depth : Int) (c : Char) (s : Scanner) : Option (Int × Scanner) :=
  if c = '/' then do
    let (found, s) ← s.expect '*'
    if found then return (← i32? (depth + 1), s) else return (depth, s)
  else if c = '*' then do
    let (found, s) ← s.expect '/'
    if found then return (← i32? (depth - 1), s) else return (depth, s)
  else some (depth, s)

def skipBlock (depth : Int) (s : Scanner) : Option Scanner := do
  let (c?, s₁) ← s.consume
  match c? with
  | none => some s₁
  | some c => do
    let (depth, s₂) ← s₁.mark depth c
    if depth ≤ 0 then some s₂
    else if s₂.left.length < s.left.length then skipBlock depth s₂
    else none
termination_by s.left.length

variable (text : String)

def token (kind : Kind) (s : Scanner) : Option Item := do
  let part ← Text.slice? text s.start s.current
  return .ok ⟨kind, part, s.startPlace, s.place⟩

/-- A string without its quotes, of which the first one has been read. -/
def string (s : Scanner) : Option (Item × Scanner) := do
  let s ← s.skipWhile (· ≠ '"')
  let (c?, s) ← s.consume
  match c? with
  | none => return (.error (.unterminatedString s.startPlace), s)
  | some _ => do
    let part ← Text.slice? text (← usize? (s.start + 1)) (← usize? (s.current - 1))
    return (.ok ⟨.string, part, s.startPlace, s.place⟩, s)

def word (s : Scanner) : Option (Item × Scanner) := do
  let s ← s.skipWhile Text.isWordChar
  let name ← Text.slice? text s.start s.current
  return (.ok ⟨.ofWord name.toList, name, s.startPlace, s.place⟩, s)

/-- One mark, or another one if an equals sign comes next. -/
def mark? (single double : Kind) (s : Scanner) : Option (Option Item × Scanner) := do
  let (found, s) ← s.expect '='
  let item ← s.token text (if found then double else single)
  return (item, s)

/-- What a character begins that has been read, if it is no comment. -/
def item? (c : Char) (s : Scanner) : Option (Option Item × Scanner) :=
  if c = '=' then s.mark? text .assign .equal
  else if c = '!' then s.mark? text .bang .notEqual
  else if c = '/' then do
    let (found, s) ← s.expect '/'
    if found then return (none, ← s.skipLine)
    let (found, s) ← s.expect '*'
    if found then return (none, ← s.skipBlock 1)
    return (← s.token text .slash, s)
  else match Kind.symbols.lookup c with
    | some kind => do return (← s.token text kind, s)
    | none =>
      if c = '"' then do
        let (item, s) ← s.string text
        return (item, s)
      else if Text.isDigit c then do
        let s ← s.skipWhile Text.isDigit
        return (← s.token text .int, s)
      else if Text.isLetter c then do
        let (item, s) ← s.word text
        return (item, s)
      else some (some (.error (.unexpectedCharacter s.startPlace c)), s)

def scan (s : Scanner) : Option (Item × Scanner) := do
  let s₁ ← s.skipWhile Text.isBlank
  let (c?, s₂) ← { s₁ with start := s₁.current, startPlace := s₁.place }.consume
  match c? with
  | none => return (← s₂.token text .eof, s₂)
  | some c => do
    let (item?, s₃) ← s₂.item? text c
    match item? with
    | none => if s₃.left.length < s.left.length then scan s₃ else none
    | some item => some (item, s₃)
termination_by s.left.length

/-- What `n` calls of the scanner yield, one after the other. -/
def scanTimes : Nat → Scanner → Option (List Item)
  | 0, _ => some []
  | n + 1, s => do
    let (item, s) ← s.scan text
    let items ← scanTimes n s
    return item :: items

end Scanner

/-- Where the scanner is: `opening` stands before the token that it is at, and `before` before the characters
that are left. -/
structure Scanner.At (text : String) (opening before rest : List Char) (s : Scanner) : Prop where
  split : text.toList = before ++ rest
  left : s.left = rest
  start : s.start = Text.bytes opening
  current : s.current = Text.bytes before
  startPlace : s.startPlace = .endOf opening
  place : s.place = .endOf before

namespace Scanner.At

variable {text : String} {opening before rest : List Char} {s : Scanner}

theorem peek (h : At text opening before rest s) :
    s.peek.1 = rest.head? ∧ At text opening before rest s.peek.2 := by
  obtain ⟨chars, ahead, start, current, startPlace, place⟩ := s
  obtain ⟨split, rfl, hstart, hcurrent, hstartPlace, hplace⟩ := h
  cases ahead with
  | some c => exact ⟨rfl, split, rfl, hstart, hcurrent, hstartPlace, hplace⟩
  | none =>
    cases chars with
    | nil => exact ⟨rfl, split, rfl, hstart, hcurrent, hstartPlace, hplace⟩
    | cons c chars => exact ⟨rfl, split, rfl, hstart, hcurrent, hstartPlace, hplace⟩

theorem consume_nil (h : At text opening before [] s) : s.consume = some (none, s) := by
  obtain ⟨chars, ahead, start, current, startPlace, place⟩ := s
  obtain ⟨hahead, hchars⟩ := List.append_eq_nil_iff.1 h.left
  cases ahead with
  | some c => exact nomatch hahead
  | none =>
    cases hchars
    rfl

/-- All that stands before the next character is so short that no number grows too large. -/
theorem length_le (h : At text opening before rest s) : before.length + rest.length = text.length := by
  rw [← String.length_toList, h.split, List.length_append]

theorem current_le (h : At text opening before rest s) : s.current ≤ 4 * text.length := by
  have hbytes := Text.bytes_le before
  have hlength := h.length_le
  rw [h.current]
  omega

theorem consume_cons (hlength : text.length < 2 ^ 31 - 1) {c : Char}
    (h : At text opening before (c :: rest) s) :
    ∃ s', s.consume = some (some c, s') ∧ At text opening (before ++ [c]) rest s' := by
  obtain ⟨s₁, hpop, hleft, hstart, hcurrent, hstartPlace, hplace⟩ : ∃ s₁, s.pop? = some (c, s₁) ∧
      s₁.left = rest ∧ s₁.start = Text.bytes opening ∧ s₁.current = Text.bytes before ∧
      s₁.startPlace = .endOf opening ∧ s₁.place = .endOf before := by
    obtain ⟨chars, ahead, start, current, startPlace, place⟩ := s
    obtain ⟨-, hleft, hstart, hcurrent, hstartPlace, hplace⟩ := h
    cases ahead with
    | some d =>
      obtain ⟨rfl, rfl⟩ := List.cons.inj hleft
      exact ⟨_, rfl, rfl, hstart, hcurrent, hstartPlace, hplace⟩
    | none =>
      cases hleft
      exact ⟨_, rfl, rfl, hstart, hcurrent, hstartPlace, hplace⟩
  have hbefore : before.length + 1 ≤ text.length := by
    rw [← h.length_le, List.length_cons]
    omega
  have hindex : usize? (s₁.current + c.utf8Size) = some (Text.bytes (before ++ [c])) := by
    have hbytes := Text.bytes_le (before ++ [c])
    have hlast : Text.bytes (before ++ [c]) = Text.bytes before + c.utf8Size := Text.bytes_append before [c]
    rw [List.length_append, List.length_singleton] at hbytes
    rw [hcurrent, ← Int.natCast_add, ← hlast, usize?, if_pos (by omega), Int.toNat_natCast]
  have hafter : s₁.place.after? c = some (.endOf (before ++ [c])) := by
    have hle := Position.endOf_le before
    have hpos := Position.endOf_pos before
    rw [hplace, ← Position.after_endOf, Position.after?, Position.after]
    split
    · rw [i32?, if_pos (by omega)]
      rfl
    · rw [i32?, if_pos (by omega)]
      rfl
  refine ⟨{ s₁ with current := Text.bytes (before ++ [c]), place := .endOf (before ++ [c]) }, ?_, ?_, hleft,
    hstart, rfl, hstartPlace, rfl⟩
  · rw [consume, hpop]
    simp only [hindex, hafter, Option.bind_eq_bind, Option.bind_some]
    rfl
  · rw [h.split, List.append_assoc]
    rfl

theorem expect_cons (hlength : text.length < 2 ^ 31 - 1) {c : Char}
    (h : At text opening before (c :: rest) s) :
    ∃ s', s.expect c = some (true, s') ∧ At text opening (before ++ [c]) rest s' := by
  obtain ⟨hpeek, hat⟩ := h.peek
  obtain ⟨s', hconsume, hat'⟩ := hat.consume_cons hlength
  refine ⟨s', ?_, hat'⟩
  rw [expect]
  dsimp only
  rw [hpeek, if_pos (by rfl), hconsume]
  rfl

theorem expect_of_ne {want : Char} (h : At text opening before rest s) (hne : rest.head? ≠ some want) :
    ∃ s', s.expect want = some (false, s') ∧ At text opening before rest s' := by
  obtain ⟨hpeek, hat⟩ := h.peek
  refine ⟨s.peek.2, ?_, hat⟩
  rw [expect]
  dsimp only
  rw [hpeek, if_neg hne]

theorem stretch (hlength : text.length < 2 ^ 31 - 1) (p : Char → Bool) (h : At text opening before rest s) :
    ∃ s', s.skipWhile p = some s' ∧ At text opening (before ++ rest.takeWhile p) (rest.dropWhile p) s' := by
  induction rest generalizing before s with
  | nil =>
    obtain ⟨hpeek, hat⟩ := h.peek
    refine ⟨s.peek.2, ?_, ?_⟩
    · rw [skipWhile]
      dsimp only
      rw [hpeek]
      rfl
    · rwa [List.takeWhile_nil, List.append_nil]
  | cons c rest ih =>
    obtain ⟨hpeek, hat⟩ := h.peek
    rw [skipWhile]
    dsimp only
    rw [hpeek, List.head?_cons]
    dsimp only
    by_cases hc : p c
    · obtain ⟨s', hconsume, hat'⟩ := hat.consume_cons hlength
      obtain ⟨s'', hskip, hat''⟩ := ih hat'
      have hlt : s'.left.length < s.left.length := by
        rw [hat'.left, h.left]
        exact Nat.lt_succ_self _
      rw [if_pos hc, hconsume, List.takeWhile_cons_of_pos hc, List.dropWhile_cons_of_pos hc,
        List.append_cons]
      refine ⟨s'', ?_, hat''⟩
      rw [Option.bind_eq_bind, Option.bind_some, if_pos hlt, hskip]
    · rw [if_neg hc, List.takeWhile_cons_of_neg hc, List.dropWhile_cons_of_neg hc, List.append_nil]
      exact ⟨_, rfl, hat⟩

/-- A comment goes up to where the gap goes on outside of it. -/
theorem line (hlength : text.length < 2 ^ 31 - 1) (h : At text opening before rest s) :
    ∃ s' before' rest', s.skipLine = some s' ∧ At text opening before' rest' s' ∧ rest'.length ≤ rest.length ∧
      Gap.skip .line rest (.endOf before) = Gap.skip .blank rest' (.endOf before') := by
  induction rest generalizing before s with
  | nil =>
    refine ⟨s, before, [], ?_, h, Nat.le_refl _, rfl⟩
    rw [skipLine, h.consume_nil]
    rfl
  | cons c rest ih =>
    obtain ⟨s₁, hconsume, hat⟩ := h.consume_cons hlength
    rw [skipLine, hconsume, Gap.skip, Position.after_endOf]
    by_cases hc : c = '\n'
    · refine ⟨s₁, before ++ [c], rest, ?_, hat, Nat.le_succ _, ?_⟩
      · simp only [Option.bind_eq_bind, Option.bind_some, if_pos hc]
      · rw [if_pos hc]
    · obtain ⟨s₂, before', rest', hskip, hat', hle, hgap⟩ := ih hat
      have hlt : s₁.left.length < s.left.length := by
        rw [hat.left, h.left]
        exact Nat.lt_succ_self _
      refine ⟨s₂, before', rest', ?_, hat', Nat.le_succ_of_le hle, ?_⟩
      · simpa only [Option.bind_eq_bind, Option.bind_some, if_neg hc, if_pos hlt] using hskip
      · rw [if_neg hc, hgap]

/-- Outside of a mark, the depth stays as it is. -/
theorem mark_of_unmarked {c : Char} (hc : Unmarked c rest) (h : At text opening before rest s) (depth : Int) :
    ∃ s', s.mark depth c = some (depth, s') ∧ At text opening before rest s' := by
  rw [mark]
  split
  · next hslash =>
    obtain ⟨s', hexpect, hat⟩ := h.expect_of_ne (hc.1 hslash)
    rw [hexpect]
    exact ⟨s', rfl, hat⟩
  split
  · next hstar =>
    obtain ⟨s', hexpect, hat⟩ := h.expect_of_ne (hc.2 hstar)
    rw [hexpect]
    exact ⟨s', rfl, hat⟩
  · exact ⟨s, rfl, h⟩

theorem mark_opening (hlength : text.length < 2 ^ 31 - 1) (h : At text opening before ('*' :: rest) s)
    {depth : Nat} (hdepth : depth ≤ before.length) :
    ∃ s', s.mark depth '/' = some ((depth : Int) + 1, s') ∧ At text opening (before ++ ['*']) rest s' := by
  have hbefore := h.length_le
  have hfits : i32? ((depth : Int) + 1) = some ((depth : Int) + 1) := if_pos (by omega)
  obtain ⟨s', hexpect, hat⟩ := h.expect_cons hlength
  refine ⟨s', ?_, hat⟩
  rw [mark, if_pos rfl, hexpect]
  simp only [Option.bind_eq_bind, Option.bind_some, if_true, hfits]
  rfl

theorem mark_closing (hlength : text.length < 2 ^ 31 - 1) (h : At text opening before ('/' :: rest) s)
    {depth : Nat} (hdepth : depth < before.length) :
    ∃ s', s.mark ((depth : Int) + 1) '*' = some ((depth : Int), s') ∧
      At text opening (before ++ ['/']) rest s' := by
  have hbefore := h.length_le
  have hfits : i32? ((depth : Int) + 1 - 1) = some (depth : Int) := by
    rw [Int.add_sub_cancel]
    exact if_pos (by omega)
  obtain ⟨s', hexpect, hat⟩ := h.expect_cons hlength
  refine ⟨s', ?_, hat⟩
  rw [mark, if_neg (by decide), if_pos rfl, hexpect]
  simp only [Option.bind_eq_bind, Option.bind_some, if_true, hfits]
  rfl

/-- The depth is never greater than the number of characters before. -/
theorem block {text : String} {opening before rest : List Char} {s : Scanner} {n : Nat}
    (hlength : text.length < 2 ^ 31 - 1) (h : At text opening before rest s) (hdepth : n < before.length) :
    ∃ s' before' rest', s.skipBlock ((n : Int) + 1) = some s' ∧ At text opening before' rest' s' ∧
      rest'.length ≤ rest.length ∧
      Gap.skip (.block n) rest (.endOf before) = Gap.skip .blank rest' (.endOf before') := by
  cases rest with
  | nil =>
    refine ⟨s, before, [], ?_, h, Nat.le_refl _, rfl⟩
    rw [skipBlock, h.consume_nil]
    rfl
  | cons c rest =>
    obtain ⟨s₁, hconsume, hat⟩ := h.consume_cons hlength
    have hbefore : (before ++ [c]).length = before.length + 1 := List.length_append
    rw [skipBlock, hconsume]
    simp only [Option.bind_eq_bind, Option.bind_some]
    -- unless the outermost comment has ended, the text goes on within one
    have hgoes {m : Nat} {before₂ rest₂ : List Char} {s₂ : Scanner}
        (hmark : s₁.mark ((n : Int) + 1) c = some ((m : Int) + 1, s₂)) (hat₂ : At text opening before₂ rest₂ s₂)
        (hm : m < before₂.length) (hle : rest₂.length ≤ rest.length)
        (hgap : Gap.skip (.block n) (c :: rest) (.endOf before) = Gap.skip (.block m) rest₂ (.endOf before₂)) :
        ∃ s' before' rest', ((s₁.mark ((n : Int) + 1) c).bind fun (depth, s₂) =>
          if depth ≤ 0 then some s₂
          else if s₂.left.length < s.left.length then s₂.skipBlock depth
          else none) = some s' ∧ At text opening before' rest' s' ∧
          rest'.length ≤ (c :: rest).length ∧
          Gap.skip (.block n) (c :: rest) (.endOf before) = Gap.skip .blank rest' (.endOf before') := by
      have hlt : rest₂.length < (c :: rest).length := Nat.lt_succ_of_le hle
      obtain ⟨s₃, before₃, rest₃, hskip, hat₃, hle₃, hgap₃⟩ := block hlength hat₂ hm
      refine ⟨s₃, before₃, rest₃, ?_, hat₃, Nat.le_trans hle₃ (Nat.le_of_lt hlt), hgap.trans hgap₃⟩
      have hfurther : s₂.left.length < s.left.length := by rwa [hat₂.left, h.left]
      rw [hmark, Option.bind_some, ← hskip]
      exact (if_neg (by omega)).trans (if_pos hfurther)
    by_cases hopening : c = '/' ∧ rest.head? = some '*'
    · obtain ⟨rfl, hhead⟩ := hopening
      obtain ⟨rest, rfl⟩ := List.head?_eq_some_iff.1 hhead
      have hdepth₁ : n + 1 ≤ (before ++ ['/']).length := by omega
      obtain ⟨s₂, hmark, hat₂⟩ := hat.mark_opening hlength hdepth₁
      refine hgoes hmark hat₂ ?_ (Nat.le_succ _) ?_
      · rw [List.length_append]
        omega
      · rw [Gap.skip, Position.after_endOf, Position.after_endOf]
    by_cases hclosing : c = '*' ∧ rest.head? = some '/'
    · obtain ⟨rfl, hhead⟩ := hclosing
      obtain ⟨rest, rfl⟩ := List.head?_eq_some_iff.1 hhead
      have hdepth₁ : n < (before ++ ['*']).length := by omega
      obtain ⟨s₂, hmark, hat₂⟩ := hat.mark_closing hlength hdepth₁
      cases n with
      | zero =>
        refine ⟨s₂, _, rest, ?_, hat₂, ?_, ?_⟩
        · rw [hmark]
          rfl
        · simp only [List.length_cons]
          omega
        · rw [Gap.skip, Position.after_endOf, Position.after_endOf]
      | succ n =>
        refine hgoes hmark hat₂ ?_ (Nat.le_succ _) ?_
        · rw [List.length_append]
          omega
        · rw [Gap.skip, Position.after_endOf, Position.after_endOf]
    · have hunmarked : Unmarked c rest :=
        ⟨fun hc hhead => hopening ⟨hc, hhead⟩, fun hc hhead => hclosing ⟨hc, hhead⟩⟩
      obtain ⟨s₂, hmark, hat₂⟩ := hat.mark_of_unmarked hunmarked ((n : Int) + 1)
      refine hgoes hmark hat₂ (by omega) (Nat.le_refl _) ?_
      rw [Gap.skip, Position.after_endOf]
      · rintro cs rfl rfl
        exact hopening ⟨rfl, rfl⟩
      · rintro cs rfl rfl rfl
        exact hclosing ⟨rfl, rfl⟩
      · rintro m cs rfl rfl rfl
        exact hclosing ⟨rfl, rfl⟩
termination_by rest.length

theorem slice?_eq {stretch : List Char} (h : At text opening (opening ++ stretch) rest s) :
    Text.slice? text s.start s.current = some (String.ofList stretch) := by
  refine Text.slice?_eq_some_iff.2 ⟨opening, rest, ?_, h.start, ?_⟩
  · rw [h.split, String.toList_ofList, List.append_assoc]
  · rw [h.current, String.toList_ofList]

theorem token {stretch : List Char} (h : At text opening (opening ++ stretch) rest s) (kind : Kind) :
    s.token text kind =
      some (.ok ⟨kind, String.ofList stretch, .endOf opening, .endOf (opening ++ stretch)⟩) := by
  simp only [Scanner.token, h.slice?_eq, h.startPlace, h.place, Option.bind_eq_bind, Option.bind_some]
  rfl

end Scanner.At

/-- The scanner yields the lexeme that begins with `c` and is just after it. -/
def Scanner.Yields (text : String) (opening : List Char) (c : Char) (tail : List Char)
    (x : Option (Option Item × Scanner)) : Prop :=
  let (lexeme, n) := Lexeme.read c tail
  let stretch := c :: tail.take n
  ∃ s, x = some (some (lexeme.item (.endOf opening) (.endOf (opening ++ stretch))), s) ∧
    At text opening (opening ++ stretch) (tail.drop n) s

namespace Scanner.At

variable {text : String} {opening tail : List Char} {c : Char} {s : Scanner}

theorem yields_mark {single double : Kind} (hlength : text.length < 2 ^ 31 - 1)
    (h : At text opening (opening ++ [c]) tail s)
    (hsingle : tail.head? ≠ some '=' → Lexeme.read c tail = (.token single [c], 0))
    (hdouble : tail.head? = some '=' → Lexeme.read c tail = (.token double [c, '='], 1)) :
    Yields text opening c tail (s.mark? text single double) := by
  unfold Yields
  by_cases hhead : tail.head? = some '='
  · rw [hdouble hhead]
    obtain ⟨tail, rfl⟩ := List.head?_eq_some_iff.1 hhead
    obtain ⟨s', hexpect, hat⟩ := h.expect_cons hlength
    rw [List.append_assoc] at hat
    refine ⟨s', ?_, hat⟩
    simp only [mark?, hexpect, Option.bind_eq_bind, Option.bind_some, if_true, hat.token]
    rfl
  · rw [hsingle hhead]
    obtain ⟨s', hexpect, hat⟩ := h.expect_of_ne hhead
    refine ⟨s', ?_, hat⟩
    simp only [mark?, hexpect, Option.bind_eq_bind, Option.bind_some, hat.token]
    rfl

/-- Symbols of one character. -/
theorem yields_symbol {kind : Kind} (h : At text opening (opening ++ [c]) tail s)
    (hread : Lexeme.read c tail = (.token kind [c], 0)) :
    Yields text opening c tail (do return (← s.token text kind, s)) := by
  unfold Yields
  rw [hread]
  refine ⟨s, ?_, h⟩
  simp only [h.token, Option.bind_eq_bind, Option.bind_some]
  rfl

/-- As many characters as satisfy `p` come after the first one. -/
theorem stretch_take (hlength : text.length < 2 ^ 31 - 1) (p : Char → Bool)
    (h : At text opening (opening ++ [c]) tail s) :
    let n := (tail.takeWhile p).length
    ∃ s', s.skipWhile p = some s' ∧ At text opening (opening ++ c :: tail.take n) (tail.drop n) s' ∧
      tail.take n = tail.takeWhile p := by
  intro n
  have htake : tail.take n = tail.takeWhile p :=
    (List.prefix_iff_eq_take.1 (List.takeWhile_prefix p)).symm
  have hdrop : tail.drop n = tail.dropWhile p := by
    have hsplit : tail.takeWhile p ++ tail.dropWhile p = tail.take n ++ tail.drop n := by
      rw [List.takeWhile_append_dropWhile, List.take_append_drop]
    rw [htake] at hsplit
    exact (List.append_cancel_left hsplit).symm
  obtain ⟨s', hskip, hat⟩ := h.stretch hlength p
  rw [← htake, ← hdrop, List.append_assoc] at hat
  exact ⟨s', hskip, hat, htake⟩

/-- The slice inside the quotes of a string, each of which takes one byte. -/
theorem quoted {body rest : List Char} (hlength : text.length < 2 ^ 31 - 1)
    (h : At text opening (opening ++ '"' :: (body ++ ['"'])) rest s) :
    ∃ start stop, usize? (s.start + 1) = some start ∧ usize? (s.current - 1) = some stop ∧
      Text.slice? text start stop = some (String.ofList body) := by
  have hquote : Text.bytes ['"'] = 1 := rfl
  have hopening : Text.bytes (opening ++ ['"']) = s.start + 1 := by
    rw [Text.bytes_append, hquote, h.start]
  have hclosing : Text.bytes (opening ++ ['"'] ++ body) + 1 = s.current := by
    have hsplit : opening ++ '"' :: (body ++ ['"']) = opening ++ ['"'] ++ body ++ ['"'] := by simp
    rw [h.current, hsplit, Text.bytes_append _ ['"'], hquote]
  have hle : Text.bytes (opening ++ ['"']) ≤ Text.bytes (opening ++ ['"'] ++ body) := by
    rw [Text.bytes_append _ body]
    exact Nat.le_add_right _ _
  have hbound := h.current_le
  refine ⟨Text.bytes (opening ++ ['"']), Text.bytes (opening ++ ['"'] ++ body), ?_, ?_, ?_⟩
  · rw [usize?, if_pos (by omega), hopening]
    rfl
  · rw [usize?, if_pos (by omega), ← hclosing, Int.natCast_succ, Int.add_sub_cancel, Int.toNat_natCast]
  · refine Text.slice?_eq_some_iff.2 ⟨opening ++ ['"'], '"' :: rest, ?_, rfl, ?_⟩
    · rw [h.split, String.toList_ofList]
      simp
    · rw [String.toList_ofList]

theorem yields_string (hlength : text.length < 2 ^ 31 - 1) (h : At text opening (opening ++ ['"']) tail s) :
    Yields text opening '"' tail (do
      let (item, s) ← s.string text
      return (item, s)) := by
  unfold Yields
  obtain ⟨body, rest, rfl, hbody, -, hstop⟩ := exists_takeWhile (· ≠ '"') tail
  obtain ⟨s₁, hskip, hat, -⟩ := h.stretch_take hlength (· ≠ '"')
  rw [hbody, List.take_left, List.drop_left] at hat
  rw [Lexeme.read, if_pos rfl, hbody]
  cases rest with
  | nil =>
    have hdrop : (body ++ []).drop body.length = [] := List.drop_left
    rw [if_neg (by simp)]
    dsimp only
    rw [List.take_left, hdrop]
    refine ⟨s₁, ?_, hat⟩
    simp only [Scanner.string, hskip, hat.consume_nil, hat.startPlace, Option.bind_eq_bind, Option.bind_some]
    rfl
  | cons d rest =>
    have hd : d = '"' := by simpa using hstop d rfl
    have htake : (body ++ d :: rest).take (body.length + 1) = body ++ ['"'] := by
      rw [List.take_length_add_append, hd]
      rfl
    have hdrop : (body ++ d :: rest).drop (body.length + 1) = rest := by
      rw [List.drop_length_add_append]
      rfl
    obtain ⟨s₂, hconsume, hat₂⟩ := hat.consume_cons hlength
    have hwhole : opening ++ '"' :: body ++ [d] = opening ++ '"' :: (body ++ ['"']) := by
      rw [hd, List.append_assoc, List.cons_append]
    rw [hwhole] at hat₂
    rw [if_pos (by simp)]
    dsimp only
    rw [htake, hdrop]
    refine ⟨s₂, ?_, hat₂⟩
    obtain ⟨start, stop, hfirst, hlast, hslice⟩ := hat₂.quoted hlength
    have hstring : s.string text = some (.ok ⟨.string, String.ofList body, .endOf opening,
        .endOf (opening ++ '"' :: (body ++ ['"']))⟩, s₂) := by
      refine Option.bind_eq_some_iff.2 ⟨s₁, hskip, ?_⟩
      refine Option.bind_eq_some_iff.2 ⟨(some d, s₂), hconsume, ?_⟩
      refine Option.bind_eq_some_iff.2 ⟨_, hfirst, ?_⟩
      refine Option.bind_eq_some_iff.2 ⟨_, hlast, ?_⟩
      refine Option.bind_eq_some_iff.2 ⟨_, hslice, ?_⟩
      rw [hat₂.startPlace, hat₂.place]
      rfl
    rw [hstring]
    rfl

theorem yields_number (hlength : text.length < 2 ^ 31 - 1) (hc : Text.isDigit c)
    (h : At text opening (opening ++ [c]) tail s) :
    Yields text opening c tail (do
      let s ← s.skipWhile Text.isDigit
      return (← s.token text .int, s)) := by
  unfold Yields
  have hquote : c ≠ '"' := by
    rintro rfl
    exact absurd hc (by decide)
  obtain ⟨s', hskip, hat, htake⟩ := h.stretch_take hlength Text.isDigit
  rw [Lexeme.read, if_neg hquote, if_pos hc]
  refine ⟨s', ?_, hat⟩
  simp only [hskip, hat.token, Option.bind_eq_bind, Option.bind_some, htake]
  rfl

theorem yields_word (hlength : text.length < 2 ^ 31 - 1) (hc : Text.isLetter c)
    (h : At text opening (opening ++ [c]) tail s) :
    Yields text opening c tail (do
      let (item, s) ← s.word text
      return (item, s)) := by
  unfold Yields
  have hquote : c ≠ '"' := by
    rintro rfl
    exact absurd hc (by decide)
  have hdigit : ¬ Text.isDigit c := by
    rw [Text.isDigit_of_isLetter hc]
    exact Bool.false_ne_true
  obtain ⟨s', hskip, hat, htake⟩ := h.stretch_take hlength Text.isWordChar
  rw [Lexeme.read, if_neg hquote, if_neg hdigit, if_pos hc]
  refine ⟨s', ?_, hat⟩
  simp only [Scanner.word, hskip, hat.slice?_eq, hat.startPlace, hat.place, Option.bind_eq_bind,
    Option.bind_some, htake, String.toList_ofList]
  rfl

/-- What the character begins is a lexeme, if no comment begins there. -/
theorem yields (hlength : text.length < 2 ^ 31 - 1) (h : At text opening (opening ++ [c]) tail s)
    (hslash : c = '/' → tail.head? ≠ some '/' ∧ tail.head? ≠ some '*') :
    Yields text opening c tail (s.item? text c) := by
  unfold item?
  by_cases hassign : c = '='
  · subst hassign
    rw [if_pos rfl]
    refine h.yields_mark hlength (fun hne => Lexeme.read_symbol rfl fun _ => hne) fun heq => ?_
    obtain ⟨tail, rfl⟩ := List.head?_eq_some_iff.1 heq
    rfl
  by_cases hbang : c = '!'
  · subst hbang
    rw [if_neg hassign, if_pos rfl]
    refine h.yields_mark hlength (fun hne => Lexeme.read_symbol rfl fun _ => hne) fun heq => ?_
    obtain ⟨tail, rfl⟩ := List.head?_eq_some_iff.1 heq
    rfl
  rw [if_neg hassign, if_neg hbang]
  have hsingle : c ∈ ['=', '!'] → tail.head? ≠ some '=' := by
    intro hmem
    simp [hassign, hbang] at hmem
  by_cases hc : c = '/'
  · subst hc
    obtain ⟨hline, hblock⟩ := hslash rfl
    obtain ⟨s₁, hexpect, hat⟩ := h.expect_of_ne hline
    obtain ⟨s₂, hexpect₂, hat₂⟩ := hat.expect_of_ne hblock
    rw [if_pos rfl, hexpect]
    simp only [Option.bind_eq_bind, Option.bind_some, Bool.false_eq_true, if_false, hexpect₂]
    exact hat₂.yields_symbol (Lexeme.read_symbol rfl hsingle)
  rw [if_neg hc]
  split
  · next kind hk => exact h.yields_symbol (Lexeme.read_symbol hk hsingle)
  · next hk =>
    split
    · next hquote =>
      subst hquote
      exact h.yields_string hlength
    next hquote =>
    split
    · next hdigit => exact h.yields_number hlength hdigit
    next hdigit =>
    split
    · next hletter => exact h.yields_word hlength hletter
    next hletter =>
    have hread : Lexeme.read c tail = (.stray c, 0) := by
      have hnone : Kind.ofSymbol? c tail = none := by
        rw [Kind.ofSymbol?, if_neg fun h => hassign h.2, if_neg fun h => hbang h.2, hk]
        rfl
      rw [Lexeme.read, if_neg hquote, if_neg hdigit, if_neg hletter, hnone]
    unfold Yields
    rw [hread]
    refine ⟨s, ?_, h⟩
    rw [h.startPlace]
    rfl

/-- Before a comment, the scanner comes to where the gap goes on after it. -/
theorem comment (hlength : text.length < 2 ^ 31 - 1) {before : List Char}
    (h : At text opening (before ++ ['/']) tail s) (hmark : tail.head? = some '/' ∨ tail.head? = some '*') :
    ∃ s' before' rest', s.item? text '/' = some (none, s') ∧ At text opening before' rest' s' ∧
      rest'.length ≤ tail.length ∧
      Cursor.skipGap ⟨'/' :: tail, .endOf before⟩ = Cursor.skipGap ⟨rest', .endOf before'⟩ := by
  have hitem (s : Scanner) : s.item? text '/' = (do
      let (found, s) ← s.expect '/'
      if found then return (none, ← s.skipLine)
      let (found, s) ← s.expect '*'
      if found then return (none, ← s.skipBlock 1)
      return (← s.token text .slash, s)) := by
    rw [item?, if_neg (by decide), if_neg (by decide), if_pos rfl]
  rcases hmark with hmark | hmark
  · obtain ⟨tail, rfl⟩ := List.head?_eq_some_iff.1 hmark
    obtain ⟨s₁, hexpect, hat⟩ := h.expect_cons hlength
    obtain ⟨s₂, before', rest', hskip, hat₂, hle, hgap⟩ := hat.line hlength
    refine ⟨s₂, before', rest', ?_, hat₂, Nat.le_succ_of_le hle, ?_⟩
    · rw [hitem, hexpect]
      simp only [Option.bind_eq_bind, Option.bind_some, if_true, hskip]
      rfl
    · rw [Cursor.skipGap, Gap.skip, Position.after_endOf, Position.after_endOf, hgap]
      rfl
  · obtain ⟨tail, rfl⟩ := List.head?_eq_some_iff.1 hmark
    have hslash : ('*' :: tail).head? ≠ some '/' := fun hhead => absurd (Option.some_inj.1 hhead) (by decide)
    obtain ⟨s₁, hexpect, hat⟩ := h.expect_of_ne hslash
    obtain ⟨s₂, hexpect₂, hat₂⟩ := hat.expect_cons hlength
    have hdepth : 0 < (before ++ ['/'] ++ ['*']).length := by
      rw [List.length_append]
      exact Nat.succ_pos _
    obtain ⟨s₃, before', rest', hskip, hat₃, hle, hgap⟩ := hat₂.block hlength hdepth
    refine ⟨s₃, before', rest', ?_, hat₃, Nat.le_succ_of_le hle, ?_⟩
    · have hskip' : s₂.skipBlock 1 = some s₃ := hskip
      rw [hitem, hexpect]
      simp only [Option.bind_eq_bind, Option.bind_some, Bool.false_eq_true, if_false, hexpect₂, if_true, hskip']
      rfl
    · rw [Cursor.skipGap, Gap.skip, Position.after_endOf, Position.after_endOf, hgap]
      rfl

end Scanner.At

namespace Cursor

theorem scan_congr {c c' : Cursor} (h : c.skipGap = c'.skipGap) : c.scan = c'.scan := by
  simp only [scan, next?, h]

theorem skipGap_blanks (blanks rest : List Char) (hblanks : ∀ c ∈ blanks, Text.isBlank c)
    (before : List Char) :
    skipGap ⟨blanks ++ rest, .endOf before⟩ = skipGap ⟨rest, .endOf (before ++ blanks)⟩ := by
  induction blanks generalizing before with
  | nil => rw [List.append_nil, List.nil_append]
  | cons c blanks ih =>
    obtain ⟨hc, hblanks⟩ := List.forall_mem_cons.1 hblanks
    rw [List.append_cons before, ← ih hblanks, ← Position.after_endOf]
    exact Gap.skip_of_blank hc (blanks ++ rest) (.endOf before)

/-- Where no gap begins, the scanner reads a lexeme. -/
theorem scan_of_read {before tail : List Char} {c : Char} {lexeme : Lexeme} {n : Nat}
    (hblank : Text.isBlank c = false) (hslash : c = '/' → tail.head? ≠ some '/' ∧ tail.head? ≠ some '*')
    (hread : Lexeme.read c tail = (lexeme, n)) :
    scan ⟨c :: tail, .endOf before⟩ =
      (lexeme.item (.endOf before) (.endOf (before ++ c :: tail.take n)),
        ⟨tail.drop n, .endOf (before ++ c :: tail.take n)⟩) := by
  have hskip : skipGap ⟨c :: tail, .endOf before⟩ = ⟨c :: tail, .endOf before⟩ :=
    Gap.skip_of_ne hblank hslash (.endOf before)
  simp only [scan, next?, hskip, hread, drop_endOf]
  rfl

end Cursor

/-- One call of the scanner, which comes to the same place as the cursor. -/
theorem Scanner.At.scan {text : String} {opening before rest : List Char} {s : Scanner}
    (hlength : text.length < 2 ^ 31 - 1) (h : At text opening before rest s) :
    ∃ s' item opening' before' rest', s.scan text = some (item, s') ∧
      Cursor.scan ⟨rest, .endOf before⟩ = (item, ⟨rest', .endOf before'⟩) ∧
      At text opening' before' rest' s' := by
  obtain ⟨blanks, rest₁, hrest, hblanks, hall, hstop⟩ := exists_takeWhile Text.isBlank rest
  obtain ⟨s₁, hskip, hat⟩ := h.stretch hlength Text.isBlank
  have hdrop : rest.dropWhile Text.isBlank = rest₁ := by
    have hsplit := List.takeWhile_append_dropWhile (p := Text.isBlank) (l := rest)
    rw [hblanks, hrest] at hsplit
    rw [hrest]
    exact List.append_cancel_left hsplit
  have hgap : Cursor.skipGap ⟨rest, .endOf before⟩ = Cursor.skipGap ⟨rest₁, .endOf (before ++ blanks)⟩ := by
    rw [hrest]
    exact Cursor.skipGap_blanks blanks rest₁ hall before
  rw [hblanks, hdrop] at hat
  rw [Cursor.scan_congr hgap, Scanner.scan, hskip]
  generalize before ++ blanks = before at hat
  simp only [Option.bind_eq_bind, Option.bind_some]
  have hat₂ : At text before before rest₁ { s₁ with start := s₁.current, startPlace := s₁.place } :=
    ⟨hat.split, hat.left, hat.current, hat.current, hat.place, hat.place⟩
  generalize ({ s₁ with start := s₁.current, startPlace := s₁.place } : Scanner) = s₂ at hat₂
  cases rest₁ with
  | nil =>
    have hend : At text before (before ++ []) [] s₂ := by rwa [List.append_nil]
    refine ⟨s₂, .ok (.eof (.endOf before)), before, before, [], ?_, rfl, hat₂⟩
    rw [hat₂.consume_nil]
    simp only [Option.bind_some, hend.token, List.append_nil, String.ofList_nil]
    rfl
  | cons c tail =>
    obtain ⟨s₃, hconsume, hat₃⟩ := hat₂.consume_cons hlength
    rw [hconsume]
    by_cases hcomment : c = '/' ∧ (tail.head? = some '/' ∨ tail.head? = some '*')
    · obtain ⟨rfl, hmark⟩ := hcomment
      obtain ⟨s₄, before', rest', hitem, hat₄, hle, hgap⟩ := hat₃.comment hlength hmark
      have hlt : rest'.length < rest.length := by
        rw [hrest, List.length_append, List.length_cons]
        omega
      have hfurther : s₄.left.length < s.left.length := by rwa [hat₄.left, h.left]
      rw [Cursor.scan_congr hgap]
      simp only [Option.bind_some, hitem, if_pos hfurther]
      exact Scanner.At.scan hlength hat₄
    · have hblank : Text.isBlank c = false := hstop c rfl
      have hslash : c = '/' → tail.head? ≠ some '/' ∧ tail.head? ≠ some '*' := fun hc =>
        ⟨fun hline => hcomment ⟨hc, .inl hline⟩, fun hblock => hcomment ⟨hc, .inr hblock⟩⟩
      obtain ⟨⟨lexeme, n⟩, hread⟩ : ∃ r, Lexeme.read c tail = r := ⟨_, rfl⟩
      have hyields := hat₃.yields hlength hslash
      rw [Scanner.Yields, hread] at hyields
      obtain ⟨s₄, hitem, hat₄⟩ := hyields
      refine ⟨s₄, _, _, _, _, ?_, Cursor.scan_of_read hblank hslash hread, hat₄⟩
      simp only [Option.bind_some, hitem]
termination_by rest.length
decreasing_by exact hlt

/-- Any number of calls. -/
theorem Scanner.At.scanTimes {text : String} {opening before rest : List Char} {s : Scanner}
    (hlength : text.length < 2 ^ 31 - 1) (h : At text opening before rest s) (n : Nat) :
    s.scanTimes text n = some (Cursor.scanTimes n ⟨rest, .endOf before⟩) := by
  induction n generalizing opening before rest s with
  | zero => rfl
  | succ n ih =>
    obtain ⟨s', item, opening', before', rest', hscan, hcursor, hat⟩ := h.scan hlength
    rw [Scanner.scanTimes, hscan, Cursor.scanTimes, hcursor]
    simp only [Option.bind_eq_bind, Option.bind_some, ih hat]
    rfl

theorem Scanner.at_ofText (text : String) : At text [] [] text.toList (ofText text) :=
  ⟨rfl, rfl, rfl, rfl, rfl, rfl⟩

end Monkey
