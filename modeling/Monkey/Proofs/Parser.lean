import Monkey.Proofs.Partition
import Monkey.Proofs.Yields

namespace Monkey

open Parse

/-- A call that yields an error has passed at least one character. -/
theorem Cursor.length_lt_of_scan {c c' : Cursor} {e : LexicalError} (h : c.scan = (.error e, c')) :
    c'.rest.length < c.rest.length := by
  rw [scan] at h
  cases hnext : c.next? with
  | none =>
    rw [hnext] at h
    cases h
  | some found =>
    rw [hnext] at h
    cases h
    exact length_lt_of_next? hnext

/-- The next token, with the errors before it and what is left of the text. -/
def Cursor.token (c : Cursor) : List LexicalError × Token × Cursor :=
  match h : c.scan with
  | (.ok t, rest) => ([], t, rest)
  | (.error e, rest) =>
    have := length_lt_of_scan h
    let (errors, t, c') := token rest
    (e :: errors, t, c')
termination_by c.rest.length

/-- A parser that holds two tokens, of which it works on the first, and counts how often it asks for one. -/
structure Parser where
  cursor : Cursor
  current : Token
  ahead : Token
  errors : List Diagnostic
  calls : Nat

/-- What the parser does to find a phrase, if there is one. It gives nothing if it goes deeper than it may. -/
abbrev Parsing := OptionT (StateT Parser Option)

namespace Parser

def ofText (source : String) : Parser :=
  ⟨Cursor.ofText source, .empty, .empty, [], 0⟩

/-- Moves on by one token, and reports the errors before the one that it now looks ahead at. -/
def next : Parsing Unit :=
  modify fun s =>
    let (errors, t, cursor) := s.cursor.token
    ⟨cursor, s.ahead, t, s.errors ++ errors.map .lexical, s.calls + 1⟩

def report (e : SyntaxError) : Parsing Unit :=
  modify fun s => { s with errors := s.errors ++ [.syntactic e] }

/-- Moves on to the token ahead if it is of the wanted kind. -/
def expect (want : Kind) : Parsing Token := do
  let s ← get
  if s.ahead.kind = want then
    next
    return s.ahead
  else
    report (.unexpected want s.ahead.kind)
    failure

def tooDeep {α : Type} : Parsing α :=
  fun _ => none

/-- Goes on in any case. -/
def attempt {α : Type} (x : Parsing α) : Parsing (Option α) :=
  fun s => do
    let (r, s') ← x s
    return (some r, s')

/-- Moves on to the next semicolon or to the end. -/
def synchronize : Nat → Parsing Unit
  | 0 => tooDeep
  | depth + 1 => do
    let s ← get
    if s.current.kind = .semicolon ∨ s.current.kind = .eof then return
    else
      next
      synchronize depth

/-- A statement that fails is given up to its semicolon. -/
def orSynchronize {α : Type} (depth : Nat) (x : Parsing α) : Parsing α := do
  match ← attempt x with
  | some a => return a
  | none =>
    synchronize depth
    failure

/-- A statement may end with a semicolon. -/
def ended (stmt : Stmt) : Parsing Stmt := do
  let s ← get
  if s.ahead.kind = .semicolon then
    next
    return stmt
  else return stmt

def moreParameters : Nat → Parsing (List Ident)
  | 0 => tooDeep
  | depth + 1 => do
    let s ← get
    if s.ahead.kind = .comma then
      next
      let name ← expect .ident
      let names ← moreParameters depth
      return .ofToken name :: names
    else
      let _ ← expect .parenR
      return []

def parameters (depth : Nat) : Parsing (List Ident) := do
  let s ← get
  if s.ahead.kind = .parenR then
    next
    return []
  else
    let name ← expect .ident
    let names ← moreParameters depth
    return .ofToken name :: names

-- Each call and each round of a loop may go one step less deep than the one that makes it

mutual

def expression : Nat → Level → Parsing Expr
  | 0, _ => tooDeep
  | depth + 1, level => do
    let left ← operand depth
    operators depth level left

/-- The phrase that the current token begins. -/
def operand : Nat → Parsing Expr
  | 0 => tooDeep
  | depth + 1 => do
    let s ← get
    let t := s.current
    match t.kind with
    | .ident => return .ident (.ofToken t)
    | .int =>
      let n := Text.value t.text.toList
      if n ≤ maxNumeral then return .int (.ofNat n)
      else
        report (.numberTooLarge t.text)
        failure
    | .string => return .string t.text
    | .trueWord => return .bool true
    | .falseWord => return .bool false
    | .bang | .minus =>
      next
      let right ← expression depth .unary
      return .unary t right
    | .parenL =>
      next
      let e ← expression depth .lowest
      let _ ← expect .parenR
      return e
    | .ifWord =>
      let _ ← expect .parenL
      next
      let test ← expression depth .lowest
      let _ ← expect .parenR
      let _ ← expect .braceL
      next
      let yes ← block depth
      let s ← get
      if s.ahead.kind = .elseWord then
        next
        let _ ← expect .braceL
        next
        let no ← block depth
        return .cond test yes (some no)
      else return .cond test yes none
    | .fnWord =>
      let _ ← expect .parenL
      let params ← parameters depth
      let _ ← expect .braceL
      next
      let body ← block depth
      return .function params body
    | .bracketL =>
      let es ← elements depth .bracketR
      return .array es
    | .braceL =>
      let pairs ← entries depth
      return .hash pairs
    | kind =>
      report (.noOperand kind)
      failure

def operators : Nat → Level → Expr → Parsing Expr
  | 0, _, _ => tooDeep
  | depth + 1, level, left => do
    let s ← get
    let kind := s.ahead.kind
    if kind ≠ .semicolon ∧ level.rank < (Level.ofKind kind).rank then
      match kind with
      | .parenL =>
        next
        let args ← elements depth .parenR
        operators depth level (.call left args)
      | .bracketL =>
        next
        next
        let index ← expression depth .lowest
        let _ ← expect .bracketR
        operators depth level (.index left index)
      | .equal | .notEqual | .less | .greater | .plus | .minus | .star | .slash =>
        next
        let s ← get
        let op := s.current
        next
        let right ← expression depth (Level.ofKind op.kind)
        operators depth level (.binary left op right)
      | _ => return left
    else return left

def elements : Nat → Kind → Parsing (List Expr)
  | 0, _ => tooDeep
  | depth + 1, close => do
    let s ← get
    if s.ahead.kind = close then
      next
      return []
    else
      next
      let e ← expression depth .lowest
      let es ← moreElements depth close
      return e :: es

def moreElements : Nat → Kind → Parsing (List Expr)
  | 0, _ => tooDeep
  | depth + 1, close => do
    let s ← get
    if s.ahead.kind = .comma then
      next
      next
      let e ← expression depth .lowest
      let es ← moreElements depth close
      return e :: es
    else
      let _ ← expect close
      return []

def entries : Nat → Parsing (List (Expr × Expr))
  | 0 => tooDeep
  | depth + 1 => do
    let s ← get
    if s.ahead.kind = .braceR then
      let _ ← expect .braceR
      return []
    else
      next
      let key ← expression depth .lowest
      let _ ← expect .colon
      next
      let value ← expression depth .lowest
      let s ← get
      if s.ahead.kind = .braceR then
        let _ ← expect .braceR
        return [(key, value)]
      else
        let _ ← expect .comma
        let pairs ← entries depth
        return (key, value) :: pairs

/-- The statements from the current token on, up to the closing brace. -/
def block : Nat → Parsing (List Stmt)
  | 0 => tooDeep
  | depth + 1 => do
    let s ← get
    if s.current.kind = .braceR then return []
    else if s.current.kind = .eof then
      report (.unexpected .braceR .eof)
      return []
    else
      let stmt? ← attempt (statement depth)
      next
      let stmts ← block depth
      return stmt?.toList ++ stmts

def statement : Nat → Parsing Stmt
  | 0 => tooDeep
  | depth + 1 => do
    let s ← get
    match s.current.kind with
    | .letWord => orSynchronize depth do
      let name ← expect .ident
      let _ ← expect .assign
      next
      let value ← expression depth .lowest
      ended (.bind (.ofToken name) value)
    | .returnWord => orSynchronize depth do
      next
      let value ← expression depth .lowest
      ended (.give value)
    | _ =>
      let value ← expression depth .lowest
      ended (.expr value)

end

def program : Nat → Parsing (List Stmt)
  | 0 => tooDeep
  | depth + 1 => do
    let s ← get
    if s.current.kind = .eof then return []
    else
      let stmt? ← attempt (statement depth)
      next
      let stmts ← program depth
      return stmt?.toList ++ stmts

/-- A whole text, from the creation of the parser on. -/
def text (depth : Nat) : Parsing (List Stmt) := do
  next
  next
  program depth

end Parser

namespace Cursor

variable {c c' : Cursor}

theorem token_of_ok {t : Token} (h : c.scan = (.ok t, c')) : c.token = ([], t, c') := by
  rw [token]
  split
  · next h' =>
    rw [h] at h'
    cases h'
    rfl
  · next h' =>
    rw [h] at h'
    cases h'

theorem token_of_error {e : LexicalError} (h : c.scan = (.error e, c')) :
    c.token = (e :: c'.token.1, c'.token.2) := by
  rw [token]
  split
  · next h' =>
    rw [h] at h'
    cases h'
  · next h' =>
    rw [h] at h'
    cases h'
    rfl

/-- Before the next token there are only errors. -/
theorem token_items (c : Cursor) :
    ∃ errors t c', c.token = (errors, t, c') ∧
      (c.items = errors.map .error ++ .ok t :: c'.items ∨
        c.items = errors.map .error ∧ t.kind = .eof ∧ c'.items = []) := by
  rw [items_eq]
  cases hnext : c.next? with
  | none =>
    have hscan : c.scan = (.ok (.eof c.skipGap.position), c.skipGap) := by
      rw [scan, hnext]
      rfl
    refine ⟨[], _, _, token_of_ok hscan, .inr ⟨rfl, rfl, ?_⟩⟩
    have hrest : c.skipGap.rest = [] := by
      rw [next?] at hnext
      split at hnext
      · assumption
      · cases hnext
    have hend : c.skipGap = ⟨[], c.skipGap.position⟩ := by rw [← hrest]
    rw [hend, items_eq]
    rfl
  | some found =>
    obtain ⟨item, c'⟩ := found
    have hscan : c.scan = (item, c') := by
      rw [scan, hnext]
      rfl
    cases item with
    | ok t => exact ⟨[], t, c', token_of_ok hscan, .inl rfl⟩
    | error e =>
      have hlt := length_lt_of_next? hnext
      obtain ⟨errors, t, c'', htoken, hitems⟩ := token_items c'
      refine ⟨e :: errors, t, c'', ?_, ?_⟩
      · rw [token_of_error hscan, htoken]
      rcases hitems with hitems | ⟨hitems, hend⟩
      · exact .inl (congrArg (List.cons (.error e)) hitems)
      · exact .inr ⟨congrArg (List.cons (.error e)) hitems, hend⟩
termination_by c.rest.length

end Cursor

namespace Parse

theorem tokensOf_append (items items' : List Item) :
    tokensOf (items ++ items') = tokensOf items ++ tokensOf items' := by
  induction items with
  | nil => rfl
  | cons item items ih =>
    cases item with
    | ok t => exact congrArg (t :: ·) ih
    | error e => exact ih

theorem tokensOf_map_error (errors : List LexicalError) : tokensOf (errors.map .error) = [] := by
  induction errors with
  | nil => rfl
  | cons e errors ih => exact ih

theorem lexicalFaults_map_error (errors : List LexicalError) (ahead : Nat) (items : List Item) :
    lexicalFaults ahead (errors.map .error ++ items) =
      errors.map (⟨.lexical ·, ahead + 1⟩) ++ lexicalFaults ahead items := by
  induction errors with
  | nil => rfl
  | cons e errors ih => exact congrArg (_ :: ·) ih

theorem unread_lexicalFaults (ahead : Nat) (items : List Item) :
    ∀ fault ∈ lexicalFaults ahead items, fault.unread ≤ ahead + 1 := by
  induction items generalizing ahead with
  | nil => exact fun _ h => absurd h List.not_mem_nil
  | cons item items ih =>
    cases item with
    | ok t => exact fun fault h => Nat.le_trans (ih (ahead - 1) fault h) (Nat.succ_le_succ (Nat.sub_le ..))
    | error e => exact List.forall_mem_cons.2 ⟨Nat.le_refl _, ih ahead⟩

variable {fault : Fault} {syntactic lexical : List Fault}

/-- What is found first is reported first. -/
theorem inOrder_cons_left (h : ∀ later ∈ lexical, later.unread ≤ fault.unread) :
    inOrder (fault :: syntactic) lexical = fault.diagnostic :: inOrder syntactic lexical := by
  cases lexical with
  | nil =>
    rw [inOrder, inOrder, List.merge_right, List.merge_right]
    rfl
  | cons later lexical =>
    have hle := (List.forall_mem_cons.1 h).1
    rw [inOrder, List.cons_merge_cons, if_pos (decide_eq_true hle)]
    rfl

theorem inOrder_cons_right (h : ∀ later ∈ syntactic, later.unread < fault.unread) :
    inOrder syntactic (fault :: lexical) = fault.diagnostic :: inOrder syntactic lexical := by
  cases syntactic with
  | nil =>
    rw [inOrder, inOrder, List.nil_merge, List.nil_merge]
    rfl
  | cons later syntactic =>
    have hlt := (List.forall_mem_cons.1 h).1
    rw [inOrder, List.cons_merge_cons, if_neg fun hle => Nat.not_le_of_lt hlt (of_decide_eq_true hle)]
    rfl

theorem inOrder_append_right {faults : List Fault}
    (h : ∀ fault ∈ faults, ∀ later ∈ syntactic, later.unread < fault.unread) :
    inOrder syntactic (faults ++ lexical) = faults.map (·.diagnostic) ++ inOrder syntactic lexical := by
  induction faults with
  | nil => rfl
  | cons fault faults ih =>
    obtain ⟨hfault, h⟩ := List.forall_mem_cons.1 h
    rw [List.cons_append, inOrder_cons_right hfault, ih h]
    rfl

end Parse

namespace Parser

/-- The token is the first one, or stands for the end. -/
def Shows (t : Token) : List Token → Prop
  | [] => t.kind = .eof
  | t' :: _ => t = t'

theorem Shows.kind_eq {t : Token} {ts : List Token} (h : Shows t ts) : t.kind = front ts := by
  cases ts with
  | nil => exact h
  | cons t' ts => exact congrArg Token.kind h

/-- The tokens after the current one, and a bound for how often the parser will have asked for one when it has
moved on to them. -/
structure Ahead (s : Parser) (ts : List Token) (n : Nat) : Prop where
  shows : Shows s.ahead ts
  later : tokensOf s.cursor.items = ts.tail
  ends : ts = [] → s.cursor.items = []
  proper : ∀ t ∈ ts, t.kind ≠ .eof
  calls : s.calls < n

/-- The current token has been read, and it ends no statement. -/
structure Before (s : Parser) (ts : List Token) (n : Nat) : Prop extends Ahead s ts n where
  goes : s.current.kind ≠ .semicolon
  stops : s.current.kind = .eof → ts = []

/-- The tokens from the current one on. -/
structure At (s : Parser) (ts : List Token) (n : Nat) : Prop where
  shows : Shows s.current ts
  tail : Ahead s ts.tail (n + 1)
  proper : ∀ t ∈ ts, t.kind ≠ .eof

/-- The number of tokens after the current one. -/
def unread (s : Parser) : Nat :=
  (tokensOf s.cursor.items).length + if s.ahead.kind = .eof then 0 else 1

/-- The errors reported so far, with those that the parser will find and the lexical ones among the characters
that are left. -/
def outlook (s : Parser) (later : List Fault) : List Diagnostic :=
  s.errors ++ inOrder later (lexicalFaults (tokensOf s.cursor.items).length s.cursor.items)

/-- On the way from one state to another, the parser has found the faults in the list. -/
structure Reports (s s' : Parser) (log : List Fault) : Prop where
  unread : s'.unread ≤ s.unread
  bounded : ∀ fault ∈ log, fault.unread ≤ s.unread
  errors : ∀ later : List Fault, (∀ fault ∈ later, fault.unread ≤ s'.unread) →
    s'.outlook later = s.outlook (log ++ later)

theorem Reports.refl (s : Parser) : Reports s s [] :=
  ⟨Nat.le_refl _, List.forall_mem_nil _, fun _ _ => rfl⟩

theorem Reports.trans {s s' s'' : Parser} {log log' : List Fault} (h : Reports s s' log)
    (h' : Reports s' s'' log') : Reports s s'' (log ++ log') := by
  refine ⟨Nat.le_trans h'.unread h.unread, ?_, fun later hlater => ?_⟩
  · exact List.forall_mem_append.2 ⟨h.bounded, fun fault hf => Nat.le_trans (h'.bounded fault hf) h.unread⟩
  · have hrest : ∀ fault ∈ log' ++ later, fault.unread ≤ s'.unread :=
      List.forall_mem_append.2 ⟨h'.bounded, fun fault hf => Nat.le_trans (hlater fault hf) h'.unread⟩
    rw [h'.errors later hlater, h.errors _ hrest, List.append_assoc]

theorem Reports.silent {s s' s'' : Parser} {log : List Fault} (h : Reports s s' log)
    (h' : Reports s' s'' []) : Reports s s'' log :=
  List.append_nil log ▸ h.trans h'

variable {s : Parser} {t : Token} {ts : List Token} {m n : Nat}

theorem Ahead.mono (h : s.Ahead ts m) (hle : m ≤ n) : s.Ahead ts n :=
  ⟨h.shows, h.later, h.ends, h.proper, Nat.lt_of_lt_of_le h.calls hle⟩

theorem Ahead.unread_eq (h : s.Ahead ts n) : s.unread = ts.length := by
  rw [unread, h.later, h.shows.kind_eq]
  cases ts with
  | nil => rfl
  | cons t ts =>
    rw [front_cons, if_neg (h.proper t List.mem_cons_self)]
    rfl

theorem At.ahead (h : s.At (t :: ts) n) : s.Ahead ts (n + 1) :=
  h.tail

/-- The current token has been passed over when the next one is looked for. -/
theorem At.before {k : Kind} (h : s.At (t :: ts) n) (ht : t.kind = k) (hk : k ≠ .semicolon := by decide) :
    s.Before ts (n + 1) := by
  have hcurrent : s.current.kind = t.kind := h.shows.kind_eq
  refine ⟨h.tail, hcurrent.trans ht ▸ hk, fun hend => ?_⟩
  exact absurd (hcurrent.symm.trans hend) (h.proper t List.mem_cons_self)

theorem next_apply (s : Parser) : next s = some (some (), ⟨s.cursor.token.2.2, s.ahead, s.cursor.token.2.1,
    s.errors ++ s.cursor.token.1.map .lexical, s.calls + 1⟩) :=
  rfl

/-- The errors between two tokens are reported before all that is found wrong with the tokens after them. -/
theorem outlook_next {errors : List LexicalError} {items : List Item} {c : Cursor}
    (hitems : s.cursor.items = errors.map .error ++ items)
    (hrest : lexicalFaults (tokensOf c.items).length c.items = lexicalFaults (tokensOf items).length items)
    (later : List Fault) (hlater : ∀ fault ∈ later, fault.unread ≤ (tokensOf items).length)
    (ahead : Token) (calls : Nat) :
    outlook ⟨c, s.ahead, ahead, s.errors ++ errors.map .lexical, calls⟩ later = s.outlook later := by
  have hfirst : ∀ fault ∈ errors.map (fun e => (⟨.lexical e, (tokensOf items).length + 1⟩ : Fault)),
      ∀ fault' ∈ later, fault'.unread < fault.unread := by
    intro fault hfault fault' hfault'
    obtain ⟨e, -, rfl⟩ := List.mem_map.1 hfault
    exact Nat.lt_succ_of_le (hlater fault' hfault')
  rw [outlook, outlook, hitems, tokensOf_append, tokensOf_map_error, List.nil_append,
    lexicalFaults_map_error, inOrder_append_right hfirst, List.map_map, hrest, List.append_assoc]
  rfl

theorem Ahead.next (h : s.Ahead ts n) :
    ∃ s', Parser.next s = some (some (), s') ∧ s'.At ts n ∧ Reports s s' [] := by
  obtain ⟨errors, t, c, htoken, hscanned⟩ := s.cursor.token_items
  refine ⟨_, next_apply s, ?_⟩
  rw [htoken]
  generalize hs' : (⟨c, s.ahead, t, s.errors ++ errors.map .lexical, s.calls + 1⟩ : Parser) = s'
  have hproper : ∀ t ∈ ts.tail, t.kind ≠ .eof := fun t ht => h.proper t (List.mem_of_mem_tail ht)
  obtain ⟨items, hitems, htail, hrest, hahead⟩ : ∃ items, s.cursor.items = errors.map .error ++ items ∧
      tokensOf items = ts.tail ∧
      lexicalFaults (tokensOf c.items).length c.items = lexicalFaults (tokensOf items).length items ∧
      s'.Ahead ts.tail (n + 1) := by
    have hlater := h.later
    have hcalls : s'.calls < n + 1 := hs' ▸ Nat.succ_lt_succ h.calls
    rcases hscanned with hitems | ⟨hitems, hend, hnil⟩
    · rw [hitems, tokensOf_append, tokensOf_map_error] at hlater
      refine ⟨_, hitems, hlater, rfl, ?_, ?_, fun hnil => ?_, hproper, hcalls⟩
      · rw [← hlater, ← hs']
        rfl
      · rw [← hlater, ← hs']
        rfl
      · rw [hnil] at hlater
        exact nomatch hlater
    · rw [hitems, tokensOf_map_error] at hlater
      refine ⟨[], ?_, hlater, ?_, ?_, ?_, fun _ => ?_, hproper, hcalls⟩
      · rw [hitems, List.append_nil]
      · rw [hnil]
      · rw [← hlater, ← hs']
        exact hend
      · rw [← hlater, ← hs']
        exact congrArg tokensOf hnil
      · rw [← hs']
        exact hnil
  have hunread : s'.unread = ts.tail.length := hahead.unread_eq
  refine ⟨⟨?_, hahead, h.proper⟩, ?_, List.forall_mem_nil _, fun later hlater => ?_⟩
  · rw [← hs']
    exact h.shows
  · rw [hunread, h.unread_eq]
    exact length_tail_le ts
  · rw [← hs']
    exact outlook_next hitems hrest later (by rwa [htail, ← hunread]) t _

/-- What is wrong with the tokens ahead is reported before the errors between them. -/
theorem Ahead.report (h : s.Ahead ts n) (e : SyntaxError) :
    ∃ s', Parser.report e s = some (some (), s') ∧ s'.Ahead ts n ∧ s'.current = s.current ∧
      Reports s s' [⟨.syntactic e, ts.length⟩] := by
  have hahead : Ahead { s with errors := s.errors ++ [.syntactic e] } ts n :=
    ⟨h.shows, h.later, h.ends, h.proper, h.calls⟩
  refine ⟨_, rfl, hahead, rfl, Nat.le_refl _, ?_, fun later _ => ?_⟩
  · rw [h.unread_eq]
    exact List.forall_mem_singleton.2 (Nat.le_refl _)
  · have hbound : ∀ fault ∈ lexicalFaults (tokensOf s.cursor.items).length s.cursor.items,
        fault.unread ≤ ts.length := by
      cases ts with
      | nil =>
        rw [h.ends rfl]
        exact List.forall_mem_nil _
      | cons t ts =>
        have htokens : tokensOf s.cursor.items = ts := h.later
        rw [htokens]
        exact unread_lexicalFaults _ _
    rw [outlook, outlook, List.singleton_append, inOrder_cons_left hbound, List.append_assoc]
    rfl

end Parser

end Monkey
