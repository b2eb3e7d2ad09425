/-!
# Parsers with located failures

A parser reads the front of a text. When it fails it says how much of the text was left
at that point and what it expected, and whether the failure is final: a committed failure
ends the whole parse, any other lets the next alternative try.
-/

namespace Phrasebook.Source

inductive Expectation where
  | char (c : Char)
  | phrase (text : String)
deriving DecidableEq, Repr

def Expectation.toText : Expectation → String
  | .char c => "`" ++ String.singleton c ++ "`"
  | .phrase text => text

/-- What a parser was reading and what it needed, from the inside out. -/
inductive Context where
  | label (name : String)
  | expected (what : Expectation)
deriving DecidableEq, Repr

structure Failure where
  rest : List Char
  committed : Bool := false
  contexts : List Context := []
deriving DecidableEq, Repr

/-- The innermost label and all expectations; the fallback when there is neither. -/
def Failure.message (f : Failure) (fallback : String) : String :=
  let label := f.contexts.findSome? fun
    | .label name => some ("invalid " ++ name)
    | .expected _ => none
  let expected := f.contexts.filterMap fun
    | .expected what => some what.toText
    | .label _ => none
  let parts := label.toList ++
    if expected.isEmpty then [] else ["expected " ++ ", ".intercalate expected]
  if parts.isEmpty then fallback else "; ".intercalate parts

inductive Outcome (α : Type) where
  | done (value : α) (rest : List Char)
  | failed (failure : Failure)
deriving Repr

/-- Change the value that was read. -/
def Outcome.map {α β : Type} (f : α → β) : Outcome α → Outcome β
  | .done a rest => .done (f a) rest
  | .failed e => .failed e

theorem Outcome.map_eq_done {α β : Type} {f : α → β} {o : Outcome α} {b : β} {rest : List Char} :
    o.map f = .done b rest ↔ ∃ a, o = .done a rest ∧ f a = b := by
  cases o with
  | done a r => grind [Outcome.map]
  | failed e => simp [Outcome.map]

def Parser (α : Type) : Type := List Char → Outcome α

namespace Parser

variable {α β : Type}

protected def pure (a : α) : Parser α := fun s => .done a s

/-- Read one thing after another; a failure stays where it happened. -/
protected def bind (p : Parser α) (f : α → Parser β) : Parser β := fun s =>
  match p s with
  | .done a r => f a r
  | .failed e => .failed e

instance : Monad Parser where
  pure := Parser.pure
  bind := Parser.bind

def fail : Parser α := fun s => .failed { rest := s }

/-- Try a second parser from the same place, unless the first one committed. -/
def or (p q : Parser α) : Parser α := fun s =>
  match p s with
  | .done a r => .done a r
  | .failed e => if e.committed then .failed e else q s

/-- Read something if it is there. -/
def optional (p : Parser α) : Parser (Option α) := fun s =>
  match p s with
  | .done a r => .done (some a) r
  | .failed e => if e.committed then .failed e else .done none s

/-- Make every failure final. -/
def commit (p : Parser α) : Parser α := fun s =>
  match p s with
  | .done a r => .done a r
  | .failed e => .failed { e with committed := true }

/-- Add context to a failure. -/
def context (c : Context) (p : Parser α) : Parser α := fun s =>
  match p s with
  | .done a r => .done a r
  | .failed e => .failed { e with contexts := e.contexts ++ [c] }

def label (name : String) (p : Parser α) : Parser α :=
  p.context (.label name)

def expecting (text : String) (p : Parser α) : Parser α :=
  p.context (.expected (.phrase text))

def expectingChar (c : Char) (p : Parser α) : Parser α :=
  p.context (.expected (.char c))

/-- Fail where the parser started if its result is not wanted. -/
def verify (wanted : α → Bool) (p : Parser α) : Parser α := fun s =>
  match p s with
  | .done a r => if wanted a then .done a r else .failed { rest := s }
  | .failed e => .failed e

/-- Read as often as possible. A round that reads nothing is the last. -/
def many (p : Parser α) : Parser (List α) := fun s =>
  match p s with
  | .failed e => if e.committed then .failed e else .done [] s
  | .done a r =>
    if r.length < s.length then
      match many p r with
      | .done as r => .done (a :: as) r
      | .failed e => .failed e
    else .done [] s
termination_by s => s.length

/-- Read at least once. -/
def many1 (p : Parser α) : Parser (List α) := do
  let a ← p
  let as ← p.many
  return a :: as

/-! ## Single characters and runs of them -/

def satisfy (wanted : Char → Bool) : Parser Char
  | c :: cs => if wanted c then .done c cs else .failed { rest := c :: cs }
  | [] => .failed { rest := [] }

def char (c : Char) : Parser Unit
  | d :: cs => if d = c then .done () cs else .failed { rest := d :: cs }
  | [] => .failed { rest := [] }

def takeWhile (wanted : Char → Bool) : Parser (List Char) := fun s =>
  .done (s.takeWhile wanted) (s.dropWhile wanted)

def takeWhile1 (wanted : Char → Bool) : Parser (List Char) := do
  let c ← satisfy wanted
  let cs ← takeWhile wanted
  return c :: cs

/-- Read a fixed text or nothing. -/
def literal (text : List Char) : Parser Unit := fun s =>
  if text.isPrefixOf s then .done () (s.drop text.length) else .failed { rest := s }

def endOfInput : Parser Unit
  | [] => .done () []
  | s => .failed { rest := s }

/-! ## Successful outcomes -/

@[simp] theorem pure_apply (a : α) (s : List Char) : (pure a : Parser α) s = .done a s := rfl

theorem bind_apply (p : Parser α) (f : α → Parser β) (s : List Char) :
    (p >>= f) s = match p s with
      | .done a r => f a r
      | .failed e => .failed e := rfl

theorem bind_eq_done {p : Parser α} {f : α → Parser β} {s r : List Char} {b : β} :
    (p >>= f) s = .done b r ↔ ∃ a r', p s = .done a r' ∧ f a r' = .done b r := by
  rw [bind_apply]
  cases p s <;> simp [and_assoc]

theorem or_eq_done {p q : Parser α} {s r : List Char} {a : α} :
    p.or q s = .done a r ↔
      p s = .done a r ∨ ∃ e, p s = .failed e ∧ e.committed = false ∧ q s = .done a r := by
  unfold or
  cases p s with
  | done a' r' => simp
  | failed e => by_cases h : e.committed <;> simp [h]

@[simp] theorem context_eq_done {c : Context} {p : Parser α} {s r : List Char} {a : α} :
    p.context c s = .done a r ↔ p s = .done a r := by
  unfold context
  cases p s <;> simp

@[simp] theorem label_eq_done {name : String} {p : Parser α} {s r : List Char} {a : α} :
    p.label name s = .done a r ↔ p s = .done a r := context_eq_done

@[simp] theorem commit_eq_done {p : Parser α} {s r : List Char} {a : α} :
    p.commit s = .done a r ↔ p s = .done a r := by
  unfold commit
  cases p s <;> simp

theorem satisfy_eq_done {wanted : Char → Bool} {s r : List Char} {c : Char} :
    satisfy wanted s = .done c r ↔ s = c :: r ∧ wanted c = true := by
  cases s with
  | nil => simp [satisfy]
  | cons d ds =>
    by_cases h : wanted d <;> simp [satisfy, h] <;> grind

theorem char_eq_done {c : Char} {s r : List Char} {u : Unit} :
    char c s = .done u r ↔ s = c :: r := by
  cases s with
  | nil => simp [char]
  | cons d ds =>
    by_cases h : d = c <;> simp [char, h]

end Parser

end Phrasebook.Source
